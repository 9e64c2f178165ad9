import Mathlib.Data.Finmap
import Mathlib.Order.Defs.Unbundled
import Mathlib.Tactic.Common

/-!
# Lists keyed by a strict weak order

Where keys can only be compared with `lt`, two keys neither of which comes before
the other are the same key. A map is a list of entries in strictly ascending order;
inserting under a key that is there keeps the old key. `Represents` relates such a
list to a finite map on the classes of keys.
-/

set_option autoImplicit false

namespace CppCodes.Library.KeyedList

variable {K V : Type*} (lt : K → K → Bool)

/-- Neither key comes before the other. -/
def equiv (a b : K) : Bool := !lt a b && !lt b a

def Sorted (l : List (K × V)) : Prop := l.Pairwise fun a b => lt a.1 b.1 = true

def lookup (k : K) (l : List (K × V)) : Option V :=
  (l.find? fun e => equiv lt k e.1).map Prod.snd

def insert (overwrite : Bool) (k : K) (v : V) : List (K × V) → List (K × V)
  | [] => [(k, v)]
  | (k', v') :: rest =>
      if lt k k' then (k, v) :: (k', v') :: rest
      else if lt k' k then (k', v') :: insert overwrite k v rest
      else (k', if overwrite then v else v') :: rest

def erase (k : K) (l : List (K × V)) : List (K × V) := l.filter fun e => !equiv lt k e.1

/-! ## The order -/

section Order

variable {lt} {a b c : K}

theorem equiv_iff : equiv lt a b = true ↔ lt a b = false ∧ lt b a = false := by
  simp [equiv]

theorem equiv_of_not_lt (hab : ¬ lt a b = true) (hba : ¬ lt b a = true) :
    equiv lt a b = true := by
  rw [equiv_iff]
  simpa using And.intro hab hba

theorem equiv_false_of_lt (h : lt a b = true) : equiv lt a b = false ∧ equiv lt b a = false := by
  constructor <;> simp [equiv, h]

theorem equiv_symm (h : equiv lt a b = true) : equiv lt b a = true := by
  rw [equiv_iff] at h ⊢
  exact h.symm

variable [IsStrictWeakOrder K fun a b => lt a b = true]

theorem lt_trans' (hab : lt a b = true) (hbc : lt b c = true) : lt a c = true :=
  IsTrans.trans (r := fun a b => lt a b = true) a b c hab hbc

theorem lt_asymm' (hab : lt a b = true) : lt b a = false := by
  cases hba : lt b a with
  | false => rfl
  | true => exact absurd (lt_trans' hab hba) (Std.Irrefl.irrefl (r := fun a b => lt a b = true) a)

theorem equiv_refl (a : K) : equiv lt a a = true := by
  have hirrefl : ¬ lt a a = true := Std.Irrefl.irrefl (r := fun a b => lt a b = true) a
  rw [equiv_iff, and_self]
  exact Bool.eq_false_iff.mpr hirrefl

theorem equiv_trans (hab : equiv lt a b = true) (hbc : equiv lt b c = true) :
    equiv lt a c = true := by
  simp only [equiv_iff, ← Bool.not_eq_true] at hab hbc ⊢
  exact @IsStrictWeakOrder.incomp_trans K (fun a b => lt a b = true) _ a b c hab hbc

/-- Equivalent keys stand in the same relation to a third. -/
theorem equiv_congr (h : equiv lt a b = true) (c : K) : equiv lt a c = equiv lt b c := by
  rw [Bool.eq_iff_iff]
  exact ⟨equiv_trans (equiv_symm h), equiv_trans h⟩

theorem lt_of_lt_of_equiv (hab : lt a b = true) (hbc : equiv lt b c = true) : lt a c = true := by
  cases hac : lt a c with
  | true => rfl
  | false =>
    cases hca : lt c a with
    | true =>
      have hcb := lt_trans' hca hab
      rw [(equiv_iff.mp hbc).2] at hcb
      cases hcb
    | false =>
      have hboth := equiv_trans (equiv_iff.mpr ⟨hac, hca⟩) (equiv_symm hbc)
      rw [(equiv_false_of_lt hab).1] at hboth
      cases hboth

end Order

/-! ## Lists in two parts -/

section Append

variable {lt}

/-- An insertion before `x` does not reach `x`. -/
theorem insert_append_before {k x : K} (h : lt k x = true) (overwrite : Bool) (v w : V)
    (l r : List (K × V)) :
    insert lt overwrite k v (l ++ (x, w) :: r) = insert lt overwrite k v l ++ (x, w) :: r := by
  induction l with
  | nil => simp [insert, h]
  | cons e l ih =>
    rw [List.cons_append, insert, insert]
    split
    · rfl
    · split
      · rw [ih, List.cons_append]
      · rfl

theorem erase_append (k : K) (l r : List (K × V)) :
    erase lt k (l ++ r) = erase lt k l ++ erase lt k r := List.filter_append l r

theorem lookup_append (k : K) (l r : List (K × V)) :
    lookup lt k (l ++ r) = (lookup lt k l).or (lookup lt k r) := by
  unfold lookup
  rw [List.find?_append]
  cases l.find? fun e => equiv lt k e.1 <;> rfl

theorem lookup_cons (k : K) (e : K × V) (l : List (K × V)) :
    lookup lt k (e :: l) = if equiv lt k e.1 then some e.2 else lookup lt k l := by
  unfold lookup
  rw [List.find?_cons]
  cases equiv lt k e.1 <;> rfl

/-- Where no key is equivalent, there is nothing to find and nothing to erase. -/
theorem lookup_none {k : K} {l : List (K × V)} (h : ∀ e ∈ l, equiv lt k e.1 = false) :
    lookup lt k l = none := by
  unfold lookup
  rw [Option.map_eq_none_iff, List.find?_eq_none]
  intro e he
  rw [h e he]
  exact Bool.false_ne_true

theorem erase_none {k : K} {l : List (K × V)} (h : ∀ e ∈ l, equiv lt k e.1 = false) :
    erase lt k l = l := by
  unfold erase
  rw [List.filter_eq_self]
  intro e he
  rw [h e he]
  rfl

theorem lookup_eq_none_iff {k : K} {l : List (K × V)} :
    lookup lt k l = none ↔ ∀ e ∈ l, equiv lt k e.1 = false := by
  refine ⟨?_, lookup_none⟩
  intro h e he
  unfold lookup at h
  rw [Option.map_eq_none_iff, List.find?_eq_none] at h
  exact Bool.eq_false_of_not_eq_true (h e he)

/-- Looking up commutes with a change of the values. -/
theorem lookup_map_values {W : Type*} (f : V → W) (k : K) (l : List (K × V)) :
    lookup lt k (l.map fun e => (e.1, f e.2)) = (lookup lt k l).map f := by
  induction l with
  | nil => rfl
  | cons e l ih =>
    rw [List.map_cons, lookup_cons, lookup_cons, ih]
    split <;> rfl

theorem erase_map_values {W : Type*} (f : V → W) (k : K) (l : List (K × V)) :
    erase lt k (l.map fun e => (e.1, f e.2)) = (erase lt k l).map fun e => (e.1, f e.2) :=
  List.filter_map

theorem mem_insert {overwrite : Bool} {k : K} {v : V} {e : K × V} {l : List (K × V)}
    (h : e ∈ insert lt overwrite k v l) :
    e.1 = k ∨ ∃ e' ∈ l, e.1 = e'.1 := by
  induction l with
  | nil => exact Or.inl (congrArg Prod.fst (List.mem_singleton.mp h))
  | cons head l ih =>
    unfold insert at h
    split at h
    · rcases List.mem_cons.mp h with he | hold
      · exact Or.inl (congrArg Prod.fst he)
      · exact Or.inr ⟨e, hold, rfl⟩
    · split at h
      · rcases List.mem_cons.mp h with he | hnew
        · exact Or.inr ⟨head, List.mem_cons_self, congrArg Prod.fst he⟩
        · rcases ih hnew with he | ⟨e', he', heq⟩
          · exact Or.inl he
          · exact Or.inr ⟨e', List.mem_cons_of_mem _ he', heq⟩
      · rcases List.mem_cons.mp h with he | hold
        · exact Or.inr ⟨head, List.mem_cons_self, by rw [he]⟩
        · exact Or.inr ⟨e, List.mem_cons_of_mem _ hold, rfl⟩

variable [IsStrictWeakOrder K fun a b => lt a b = true]

/-- An insertion after all of `l` leaves `l` alone. -/
theorem insert_append_after {k : K} {l : List (K × V)} (h : ∀ e ∈ l, lt e.1 k = true)
    (overwrite : Bool) (v : V) (r : List (K × V)) :
    insert lt overwrite k v (l ++ r) = l ++ insert lt overwrite k v r := by
  induction l with
  | nil => rfl
  | cons e l ih =>
    have he : lt e.1 k = true := h e List.mem_cons_self
    have hrest : ∀ e' ∈ l, lt e'.1 k = true := fun e' he' => h e' (List.mem_cons_of_mem _ he')
    rw [List.cons_append, insert, if_neg (by simp [lt_asymm' he]), if_pos he, ih hrest,
      List.cons_append]

end Append

/-! ## The operations on sorted lists -/

section Operations

variable {lt} {l : List (K × V)}

theorem sorted_map_values {W : Type*} (f : V → W) :
    Sorted lt (l.map fun e => (e.1, f e.2)) ↔ Sorted lt l := List.pairwise_map

theorem sorted_erase (h : Sorted lt l) (k : K) : Sorted lt (erase lt k l) := h.filter _

variable [IsStrictWeakOrder K fun a b => lt a b = true]

theorem sorted_insert (h : Sorted lt l) (overwrite : Bool) (k : K) (v : V) :
    Sorted lt (insert lt overwrite k v l) := by
  induction l with
  | nil => exact List.pairwise_singleton _ _
  | cons head l ih =>
    obtain ⟨hhead, hrest⟩ := List.pairwise_cons.mp h
    unfold insert
    split
    · next hlt =>
      refine List.pairwise_cons.mpr ⟨?_, h⟩
      intro e he
      rcases List.mem_cons.mp he with rfl | hmem
      · exact hlt
      · exact lt_trans' hlt (hhead e hmem)
    · split
      · next hlt =>
        refine List.pairwise_cons.mpr ⟨?_, ih hrest⟩
        intro e he
        rcases mem_insert he with heq | ⟨e', he', heq⟩
        · rw [heq]
          exact hlt
        · rw [heq]
          exact hhead e' he'
      · exact List.pairwise_cons.mpr ⟨hhead, hrest⟩

/-- Keys after one that is greater are greater too. -/
theorem before_all (h : Sorted lt l) {k : K} (hhead : ∀ e ∈ l.head?, lt k e.1 = true) :
    ∀ e ∈ l, lt k e.1 = true := by
  cases l with
  | nil => simp
  | cons head l =>
    have hk : lt k head.1 = true := hhead head rfl
    intro e he
    rcases List.mem_cons.mp he with rfl | hmem
    · exact hk
    · exact lt_trans' hk ((List.pairwise_cons.mp h).1 e hmem)

/-- The key comes before all keys of the list. -/
theorem lookup_before {head : K × V} {k : K} (h : Sorted lt (head :: l)) (hlt : lt k head.1 = true) :
    lookup lt k (head :: l) = none := by
  apply lookup_none
  intro e he
  exact (equiv_false_of_lt (before_all h (by simpa using hlt) e he)).1

/-- The value under the key inserted: the old one if there is one to keep. -/
theorem lookup_insert (h : Sorted lt l) (overwrite : Bool) (k k' : K) (v : V) :
    lookup lt k' (insert lt overwrite k v l) =
      if equiv lt k' k then some (if overwrite then v else (lookup lt k l).getD v)
      else lookup lt k' l := by
  induction l with
  | nil =>
    rw [insert, lookup_cons]
    by_cases he : equiv lt k' k = true
    · rw [if_pos he, if_pos he]
      simp [lookup]
    · rw [if_neg he, if_neg he]
  | cons head l ih =>
    obtain ⟨hhead, hrest⟩ := List.pairwise_cons.mp h
    rw [insert]
    split
    · next hlt =>
      have hnone := lookup_before h hlt
      rw [lookup_cons, hnone]
      by_cases he : equiv lt k' k = true
      · rw [if_pos he, if_pos he]
        simp
      · rw [if_neg he, if_neg he]
    · next hge =>
      split
      · next hlt =>
        have hother := (equiv_false_of_lt hlt).2
        have hk : lookup lt k (head :: l) = lookup lt k l := by
          rw [lookup_cons, hother, if_neg Bool.false_ne_true]
        rw [lookup_cons, ih hrest, hk]
        by_cases he : equiv lt k' k = true
        · have hno : equiv lt k' head.1 = false := (equiv_congr he head.1).trans hother
          rw [hno, if_neg Bool.false_ne_true, if_pos he, if_pos he]
        · rw [if_neg he, if_neg he, lookup_cons]
      · next hle =>
        have hsame := equiv_of_not_lt hge hle
        have hk : lookup lt k (head :: l) = some head.2 := by
          rw [lookup_cons, if_pos hsame]
        rw [lookup_cons, hk]
        by_cases he : equiv lt k' k = true
        · rw [if_pos (equiv_trans he hsame), if_pos he]
          rfl
        · have hno : ¬ equiv lt k' head.1 = true := fun hh =>
            he (equiv_trans hh (equiv_symm hsame))
          rw [if_neg hno, if_neg he, lookup_cons, if_neg hno]

theorem length_insert (h : Sorted lt l) (overwrite : Bool) (k : K) (v : V) :
    (insert lt overwrite k v l).length =
      l.length + if (lookup lt k l).isSome then 0 else 1 := by
  induction l with
  | nil => rfl
  | cons head l ih =>
    obtain ⟨-, hrest⟩ := List.pairwise_cons.mp h
    rw [insert]
    split
    · next hlt =>
      have hnone := lookup_before h hlt
      rw [hnone]
      rfl
    · next hge =>
      split
      · next hlt =>
        have hk : lookup lt k (head :: l) = lookup lt k l := by
          rw [lookup_cons, (equiv_false_of_lt hlt).2, if_neg Bool.false_ne_true]
        rw [hk, List.length_cons, ih hrest, List.length_cons]
        omega
      · next hle =>
        have hsame := equiv_of_not_lt hge hle
        rw [lookup_cons, if_pos hsame]
        rfl

theorem lookup_erase (k k' : K) :
    lookup lt k' (erase lt k l) = if equiv lt k' k then none else lookup lt k' l := by
  unfold lookup erase
  rw [List.find?_filter]
  by_cases he : equiv lt k' k = true
  · rw [if_pos he, Option.map_eq_none_iff, List.find?_eq_none]
    intro e _
    rw [equiv_congr he]
    simp
  · rw [if_neg he]
    congr 2
    funext e
    by_cases hk : equiv lt k' e.1 = true
    · have hne : equiv lt k e.1 = false := by
        rw [Bool.eq_false_iff]
        exact fun hke => he (equiv_trans hk (equiv_symm hke))
      simp [hk, hne]
    · simp [hk]

/-- Erasing a key that was new undoes its insertion. -/
theorem erase_insert {k : K} (fresh : lookup lt k l = none) (overwrite : Bool) (v : V) :
    erase lt k (insert lt overwrite k v l) = l := by
  induction l with
  | nil => simp [insert, erase, equiv_refl]
  | cons e l ih =>
    have hall := lookup_eq_none_iff.mp fresh
    have he : equiv lt k e.1 = false := hall e List.mem_cons_self
    have hrest : ∀ e' ∈ l, equiv lt k e'.1 = false := fun e' he' =>
      hall e' (List.mem_cons_of_mem _ he')
    rw [insert]
    split
    · have hcons : erase lt k ((k, v) :: e :: l) = erase lt k (e :: l) := by
        rw [erase, List.filter_cons_of_neg (by simp [equiv_refl]), erase]
      rw [hcons, erase_none hall]
    · split
      · rw [erase, List.filter_cons_of_pos (by simp [he])]
        exact congrArg (e :: ·) (ih (lookup_none hrest))
      · next hbefore hafter =>
        rw [equiv, Bool.eq_false_of_not_eq_true hbefore, Bool.eq_false_of_not_eq_true hafter] at he
        cases he

/-- Two lists sorted by the keys with the same entries are equal. -/
theorem sorted_unique {l' : List (K × V)} (h : Sorted lt l) (h' : Sorted lt l')
    (same : ∀ e, e ∈ l ↔ e ∈ l') : l = l' := by
  have hirrefl : ∀ {l : List (K × V)}, Sorted lt l → l.Nodup := by
    intro l hl
    refine hl.imp ?_
    intro a b hab hsame
    obtain rfl := hsame
    exact absurd hab (by rw [lt_asymm' hab]; exact Bool.false_ne_true)
  have hperm : l.Perm l' := (List.perm_ext_iff_of_nodup (hirrefl h) (hirrefl h')).mpr same
  refine hperm.eq_of_pairwise ?_ h h'
  intro a b _ _ hab hba
  rw [lt_asymm' hab] at hba
  cases hba

theorem length_erase (h : Sorted lt l) (k : K) :
    (erase lt k l).length + (if (lookup lt k l).isSome then 1 else 0) = l.length := by
  induction l with
  | nil => rfl
  | cons head l ih =>
    obtain ⟨hhead, hrest⟩ := List.pairwise_cons.mp h
    by_cases he : equiv lt k head.1 = true
    · have hnone : ∀ e ∈ l, equiv lt k e.1 = false := fun e hmem => by
        rw [equiv_congr he]
        exact (equiv_false_of_lt (hhead e hmem)).1
      have hdrop : erase lt k (head :: l) = l := by
        have hcons : erase lt k (head :: l) = erase lt k l := List.filter_cons_of_neg (by simp [he])
        rw [hcons, erase_none hnone]
      rw [hdrop, lookup_cons, if_pos he]
      rfl
    · have hkeep : erase lt k (head :: l) = head :: erase lt k l :=
        List.filter_cons_of_pos (by simpa using he)
      rw [hkeep, lookup_cons, if_neg he, List.length_cons, List.length_cons]
      have hlen := ih hrest
      omega

end Operations

/-! ## A sorted list around one of its entries

What a search tree does at a node: look at the key there and go on in one half. -/

section Middle

variable {lt} {l r : List (K × V)} {x : K} {w : V}

theorem sorted_middle (h : Sorted lt (l ++ (x, w) :: r)) :
    Sorted lt l ∧ Sorted lt r ∧ (∀ e ∈ l, lt e.1 x = true) ∧ ∀ e ∈ r, lt x e.1 = true := by
  obtain ⟨hl, hr, hcross⟩ := List.pairwise_append.mp h
  obtain ⟨hx, hr⟩ := List.pairwise_cons.mp hr
  exact ⟨hl, hr, fun e he => hcross e he (x, w) List.mem_cons_self, hx⟩

variable [IsStrictWeakOrder K fun a b => lt a b = true]

/-- For a key not before the middle, the left half comes before it. -/
theorem left_before {k : K} (hl : ∀ e ∈ l, lt e.1 x = true) (hk : lt k x = false) :
    ∀ e ∈ l, lt e.1 k = true := by
  intro e he
  cases hxk : lt x k with
  | true => exact lt_trans' (hl e he) hxk
  | false => exact lt_of_lt_of_equiv (hl e he) (equiv_iff.mpr ⟨hxk, hk⟩)

theorem right_after {k : K} (hr : ∀ e ∈ r, lt x e.1 = true) (hk : lt k x = true) :
    ∀ e ∈ r, lt k e.1 = true := fun e he => lt_trans' hk (hr e he)

theorem right_after_of_equiv {k : K} (hr : ∀ e ∈ r, lt x e.1 = true) (hk : equiv lt k x = true) :
    ∀ e ∈ r, equiv lt k e.1 = false := by
  intro e he
  rw [equiv_congr hk]
  exact (equiv_false_of_lt (hr e he)).1

theorem lookup_middle (h : Sorted lt (l ++ (x, w) :: r)) (k : K) :
    lookup lt k (l ++ (x, w) :: r) =
      if lt k x then lookup lt k l else if lt x k then lookup lt k r else some w := by
  obtain ⟨-, -, hl, hr⟩ := sorted_middle h
  rw [lookup_append, lookup_cons]
  by_cases hkx : lt k x = true
  · have hnone : lookup lt k r = none :=
      lookup_none fun e he => (equiv_false_of_lt (right_after hr hkx e he)).1
    rw [if_pos hkx, (equiv_false_of_lt hkx).1, if_neg Bool.false_ne_true, hnone, Option.or_none]
  · rw [if_neg hkx]
    rw [Bool.not_eq_true] at hkx
    have hnone : lookup lt k l = none :=
      lookup_none fun e he => (equiv_false_of_lt (left_before hl hkx e he)).2
    rw [hnone, Option.none_or]
    by_cases hxk : lt x k = true
    · rw [if_pos hxk, (equiv_false_of_lt hxk).2, if_neg Bool.false_ne_true]
    · rw [if_neg hxk]
      rw [Bool.not_eq_true] at hxk
      exact if_pos (equiv_iff.mpr ⟨hkx, hxk⟩)

theorem insert_middle (h : Sorted lt (l ++ (x, w) :: r)) (overwrite : Bool) (k : K) (v : V) :
    insert lt overwrite k v (l ++ (x, w) :: r) =
      if lt k x then insert lt overwrite k v l ++ (x, w) :: r
      else if lt x k then l ++ (x, w) :: insert lt overwrite k v r
      else l ++ (x, if overwrite then v else w) :: r := by
  obtain ⟨-, -, hl, -⟩ := sorted_middle h
  by_cases hkx : lt k x = true
  · rw [if_pos hkx, insert_append_before hkx]
  · rw [if_neg hkx]
    rw [Bool.not_eq_true] at hkx
    rw [insert_append_after (left_before hl hkx), insert, hkx, if_neg Bool.false_ne_true]
    split <;> rfl

theorem erase_middle (h : Sorted lt (l ++ (x, w) :: r)) (k : K) :
    erase lt k (l ++ (x, w) :: r) =
      if lt k x then erase lt k l ++ (x, w) :: r
      else if lt x k then l ++ (x, w) :: erase lt k r else l ++ r := by
  obtain ⟨-, -, hl, hr⟩ := sorted_middle h
  have hcons : erase lt k ((x, w) :: r) =
      if equiv lt k x then erase lt k r else (x, w) :: erase lt k r := by
    unfold erase
    rw [List.filter_cons]
    cases equiv lt k x <;> rfl
  rw [erase_append, hcons]
  by_cases hkx : lt k x = true
  · have hkeep : erase lt k r = r :=
      erase_none fun e he => (equiv_false_of_lt (right_after hr hkx e he)).1
    rw [if_pos hkx, (equiv_false_of_lt hkx).1, if_neg Bool.false_ne_true, hkeep]
  · rw [if_neg hkx]
    rw [Bool.not_eq_true] at hkx
    have hkeep : erase lt k l = l :=
      erase_none fun e he => (equiv_false_of_lt (left_before hl hkx e he)).2
    rw [hkeep]
    by_cases hxk : lt x k = true
    · rw [if_pos hxk, (equiv_false_of_lt hxk).2, if_neg Bool.false_ne_true]
    · rw [if_neg hxk]
      rw [Bool.not_eq_true] at hxk
      have hsame : equiv lt k x = true := equiv_iff.mpr ⟨hkx, hxk⟩
      rw [if_pos hsame, erase_none (right_after_of_equiv hr hsame)]

end Middle

/-! ## Finite maps on classes of keys -/

section Classes

variable [IsStrictWeakOrder K fun a b => lt a b = true]

/-- Keys that cannot be told apart. -/
def classes : Setoid K where
  r a b := equiv lt a b = true
  iseqv := ⟨equiv_refl, equiv_symm, equiv_trans⟩

abbrev Class := Quotient (classes lt)

instance : DecidableEq (Class lt) :=
  @Quotient.decidableEq K (classes lt) fun a b => inferInstanceAs (Decidable (equiv lt a b = true))

def classOf (k : K) : Class lt := Quotient.mk (classes lt) k

theorem classOf_eq_iff {a b : K} : classOf lt a = classOf lt b ↔ equiv lt a b = true :=
  Quotient.eq

/-- The list has the entries of the map. -/
structure Represents (l : List (K × V)) (m : Finmap fun _ : Class lt => V) : Prop where
  sorted : Sorted lt l
  lookup : ∀ k, m.lookup (classOf lt k) = KeyedList.lookup lt k l
  card : m.keys.card = l.length

variable {lt} {l : List (K × V)} {m : Finmap fun _ : Class lt => V}

theorem represents_empty : Represents lt ([] : List (K × V)) ∅ := by
  refine ⟨List.Pairwise.nil, ?_, ?_⟩
  · intro k
    rw [Finmap.lookup_empty]
    rfl
  · rw [Finmap.keys_empty]
    rfl

theorem Represents.mem_iff (h : Represents lt l m) (k : K) :
    classOf lt k ∈ m ↔ (KeyedList.lookup lt k l).isSome = true := by
  rw [← Finmap.lookup_isSome, h.lookup]

/-- Equivalent keys find the same value. -/
theorem Represents.congr (h : Represents lt l m) {k k' : K} (he : equiv lt k' k = true) :
    KeyedList.lookup lt k' l = KeyedList.lookup lt k l := by
  rw [← h.lookup, ← h.lookup, (classOf_eq_iff lt).mpr he]

theorem keys_insert (c : Class lt) (v : V) : (m.insert c v).keys = Insert.insert c m.keys := by
  ext c'
  rw [Finmap.mem_keys, Finmap.mem_insert, Finset.mem_insert, Finmap.mem_keys]

/-- Writing a value under the key, whether or not it is there. -/
theorem Represents.insert (h : Represents lt l m) (overwrite : Bool) (k : K) (v : V) :
    Represents lt (KeyedList.insert lt overwrite k v l)
      (m.insert (classOf lt k) (if overwrite then v else (m.lookup (classOf lt k)).getD v)) := by
  refine ⟨sorted_insert h.sorted overwrite k v, ?_, ?_⟩
  · intro k'
    rw [lookup_insert h.sorted, h.lookup]
    by_cases he : equiv lt k' k = true
    · rw [if_pos he, (classOf_eq_iff lt).mpr he, Finmap.lookup_insert]
    · rw [if_neg he, Finmap.lookup_insert_of_ne _ fun hc => he ((classOf_eq_iff lt).mp hc),
        h.lookup]
  · rw [keys_insert, length_insert h.sorted]
    by_cases hmem : classOf lt k ∈ m
    · rw [Finset.insert_eq_of_mem (Finmap.mem_keys.mpr hmem), if_pos ((h.mem_iff k).mp hmem)]
      exact h.card
    · rw [Finset.card_insert_of_notMem (fun hc => hmem (Finmap.mem_keys.mp hc)), h.card,
        if_neg fun hc => hmem ((h.mem_iff k).mpr hc)]

theorem Represents.erase (h : Represents lt l m) (k : K) :
    Represents lt (KeyedList.erase lt k l) (m.erase (classOf lt k)) := by
  refine ⟨sorted_erase h.sorted k, ?_, ?_⟩
  · intro k'
    rw [lookup_erase]
    by_cases he : equiv lt k' k = true
    · rw [if_pos he, (classOf_eq_iff lt).mpr he, Finmap.lookup_erase]
    · rw [if_neg he, Finmap.lookup_erase_ne fun hc => he ((classOf_eq_iff lt).mp hc), h.lookup]
  · have hlen := length_erase h.sorted k
    rw [Finmap.keys_erase]
    by_cases hmem : classOf lt k ∈ m
    · rw [if_pos ((h.mem_iff k).mp hmem)] at hlen
      rw [Finset.card_erase_of_mem (Finmap.mem_keys.mpr hmem), h.card]
      omega
    · rw [if_neg fun hc => hmem ((h.mem_iff k).mpr hc)] at hlen
      rw [Finset.erase_eq_of_notMem (fun hc => hmem (Finmap.mem_keys.mp hc)), h.card]
      omega

end Classes

end CppCodes.Library.KeyedList
