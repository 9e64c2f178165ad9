import CppCodes.Library.Brackets
import CppCodes.Source.Others.BrainFuckTree
import Mathlib.Logic.Equiv.Defs

/-!
# The jump tables of the interpreter

`prepareJumpTable` is the pass of `Brackets.Scanned` with its stack held in `int`s
and a table entry in each direction for every pair it matches. Positions of a text
shorter than 2^31 are told apart by their `int`s, so no entry overwrites another
one.
-/

set_option autoImplicit false

namespace CppCodes.Guarantees.JumpTables

open CppCodes.Library
open CppCodes.Library.Brackets
open CppCodes.Source.Others.BrainFuck

def square : Brackets Char where
  opening := '['
  closing := ']'
  distinct := by decide

theorem balanced_iff_wellNested {text : List Char} : Balanced text ↔ square.WellNested text :=
  ⟨fun h => ⟨h.prefixes, h.whole⟩, fun h => ⟨h.prefixes, h.whole⟩⟩

/-- The entries of the table are the pairs of positions of the relation. -/
def Represents (table : Table) (related : Nat → Nat → Prop) : Prop :=
  ∀ k v, table.lookup k = some v ↔ ∃ i j, related i j ∧ k = intOfSize i ∧ v = intOfSize j

theorem Represents.congr {table : Table} {related related' : Nat → Nat → Prop}
    (h : Represents table related) (same : ∀ i j, related i j ↔ related' i j) :
    Represents table related' := by
  have heq : related = related' := funext fun i => funext fun j => propext (same i j)
  exact heq ▸ h

/-- A new key gets its entry and leaves the others alone. -/
theorem Represents.insert {table : Table} {related : Nat → Nat → Prop} {i j : Nat}
    (h : Represents table related) (hi : i < 2 ^ 31)
    (keys : ∀ i' j', related i' j' → i' < 2 ^ 31) (fresh : ∀ j', ¬ related i j') :
    Represents (table.insert (intOfSize i) (intOfSize j))
      (fun i' j' => related i' j' ∨ (i' = i ∧ j' = j)) := by
  intro k v
  by_cases hk : k = intOfSize i
  · subst hk
    rw [Finmap.lookup_insert, Option.some.injEq]
    constructor
    · intro hv
      exact ⟨i, j, Or.inr ⟨rfl, rfl⟩, rfl, hv.symm⟩
    · intro hv
      obtain ⟨i', j', hrelated, hkey, hv⟩ := hv
      cases hrelated with
      | inl hold =>
        have hsame := intOfSize_inj hi (keys i' j' hold) hkey
        exact absurd (hsame ▸ hold) (fresh j')
      | inr hnew => rw [hv, hnew.2]
  · rw [Finmap.lookup_insert_of_ne _ hk, h k v]
    constructor
    · intro hv
      obtain ⟨i', j', hrelated, hkey, hv⟩ := hv
      exact ⟨i', j', Or.inl hrelated, hkey, hv⟩
    · intro hv
      obtain ⟨i', j', hrelated, hkey, hv⟩ := hv
      cases hrelated with
      | inl hold => exact ⟨i', j', hold, hkey, hv⟩
      | inr hnew => exact absurd (hnew.1 ▸ hkey) hk

/-- The state of the loop before position `n`. -/
structure Filled (text : List Char) (n : Nat) (s : List Int32) (forward backward : Table) :
    Prop where
  scanned : ∃ stack, square.Scanned text n stack ∧ s = stack.map intOfSize
  forward : Represents forward fun i j => j < n ∧ square.Matched text i j
  backward : Represents backward fun j i => j < n ∧ square.Matched text i j

theorem Filled.start (text : List Char) : Filled text 0 [] ∅ ∅ where
  scanned := ⟨[], Scanned.start square text, rfl⟩
  forward k v := by simp
  backward k v := by simp

section Step

variable {text : List Char} {n : Nat} {s : List Int32} {forward backward : Table} {ch : Char}

/-- A letter that closes nothing adds no pair. -/
theorem pairs_succ (here : text[n]? = some ch) (notClosing : ch ≠ ']') (i j : Nat) :
    (j < n ∧ square.Matched text i j) ↔ (j < n + 1 ∧ square.Matched text i j) := by
  constructor
  · intro h
    exact ⟨by omega, h.2⟩
  · intro h
    have hne : j ≠ n := by
      intro hlast
      have hcloses := h.2.closes
      rw [hlast, here, Option.some.injEq] at hcloses
      exact notClosing hcloses
    exact ⟨by omega, h.2⟩

theorem Filled.opening (h : Filled text n s forward backward) (here : text[n]? = some '[') :
    Filled text (n + 1) (intOfSize n :: s) forward backward := by
  obtain ⟨stack, hscan, rfl⟩ := h.scanned
  exact ⟨⟨n :: stack, hscan.opening here, rfl⟩, h.forward.congr (pairs_succ here (by decide)),
    h.backward.congr fun j i => pairs_succ here (by decide) i j⟩

theorem Filled.other (h : Filled text n s forward backward) (here : text[n]? = some ch)
    (notOpening : ch ≠ '[') (notClosing : ch ≠ ']') :
    Filled text (n + 1) s forward backward := by
  obtain ⟨stack, hscan, rfl⟩ := h.scanned
  exact ⟨⟨stack, hscan.neutral here notOpening notClosing, rfl⟩,
    h.forward.congr (pairs_succ here notClosing),
    h.backward.congr fun j i => pairs_succ here notClosing i j⟩

theorem Filled.closing {top : Int32} (short : text.length < 2 ^ 31)
    (h : Filled text n (top :: s) forward backward) (here : text[n]? = some ']') :
    Filled text (n + 1) s (forward.insert top (intOfSize n))
      (backward.insert (intOfSize n) top) := by
  obtain ⟨stack, hscan, hstack⟩ := h.scanned
  cases stack with
  | nil => cases hstack
  | cons i stack =>
    rw [List.map_cons, List.cons.injEq] at hstack
    obtain ⟨rfl, rfl⟩ := hstack
    have hmatched := hscan.matched here
    have hbefore := hmatched.before
    have hinside := (List.getElem?_eq_some_iff.mp here).1
    have hpairs (i' j' : Nat) : ((j' < n ∧ square.Matched text i' j') ∨ (i' = i ∧ j' = n)) ↔
        (j' < n + 1 ∧ square.Matched text i' j') := by
      constructor
      · intro hpair
        cases hpair with
        | inl hold => exact ⟨by omega, hold.2⟩
        | inr hnew =>
          obtain ⟨rfl, rfl⟩ := hnew
          exact ⟨by omega, hmatched⟩
      · intro hpair
        by_cases hlast : j' = n
        · subst hlast
          exact Or.inr ⟨hpair.2.opening_unique hmatched, rfl⟩
        · exact Or.inl ⟨by omega, hpair.2⟩
    refine ⟨⟨stack, hscan.closing here, rfl⟩, ?_, ?_⟩
    · refine (h.forward.insert (by omega) ?_ ?_).congr hpairs
      · intro i' j' hold
        have hbefore' := hold.2.before
        omega
      · intro j' hold
        have hlast := hold.2.closing_unique hmatched
        omega
    · refine (h.backward.insert (by omega) ?_ ?_).congr fun j' i' => ?_
      · intro j' i' hold
        omega
      · intro i' hold
        omega
      · rw [← hpairs i' j', and_comm (a := i' = i)]

end Step

theorem prepareLoop_filled {text rest : List Char} {n : Nat} {s : List Int32}
    {forward backward : Table} (short : text.length < 2 ^ 31)
    (h : Filled text n s forward backward) (hrest : text.drop n = rest) :
    match prepareLoop n rest s forward backward with
    | none => ¬ square.WellNested text
    | some (s, forward, backward) => Filled text text.length s forward backward := by
  induction rest generalizing n s forward backward with
  | nil =>
    obtain ⟨stack, hscan, -⟩ := h.scanned
    have hinside := hscan.inside
    have hend := List.drop_eq_nil_iff.mp hrest
    have hlast : n = text.length := by omega
    subst hlast
    exact h
  | cons ch rest ih =>
    have here : text[n]? = some ch := by
      rw [← List.head?_drop, hrest]
      rfl
    have hnext : text.drop (n + 1) = rest := by
      rw [← List.drop_drop, hrest]
      rfl
    by_cases hopen : ch = '['
    · subst hopen
      rw [prepareLoop_opening]
      exact ih (h.opening here) hnext
    · by_cases hclose : ch = ']'
      · subst hclose
        cases s with
        | nil =>
          obtain ⟨stack, hscan, hstack⟩ := h.scanned
          have hempty : stack = [] := List.map_eq_nil_iff.mp hstack.symm
          exact (hempty ▸ hscan).stuck here
        | cons top s =>
          rw [prepareLoop_closing]
          exact ih (h.closing short here) hnext
      · rw [prepareLoop_other hopen hclose]
        exact ih (h.other here hopen hclose) hnext

/-- The positions of a character. -/
abbrev Position (text : List Char) (ch : Char) := {i : Nat // text[i]? = some ch}

/-- In a well nested text the matched pairs are a bijection. -/
theorem matching {text : List Char} (h : square.Scanned text text.length []) :
    ∃ partner : Position text '[' ≃ Position text ']',
      ∀ i j : Nat, square.Matched text i j ↔
        ∃ p : Position text '[', i = p ∧ j = partner p := by
  have hclosing (p : Position text '[') : ∃ q : Position text ']', square.Matched text p q := by
    have hinside := (List.getElem?_eq_some_iff.mp p.2).1
    cases h.openings p hinside p.2 with
    | inl hstack => cases hstack
    | inr hmatched =>
      obtain ⟨j, -, hm⟩ := hmatched
      exact ⟨⟨j, hm.closes⟩, hm⟩
  have hopening (q : Position text ']') : ∃ p : Position text '[', square.Matched text p q := by
    have hinside := (List.getElem?_eq_some_iff.mp q.2).1
    obtain ⟨i, hm⟩ := h.closings q hinside q.2
    exact ⟨⟨i, hm.opens⟩, hm⟩
  choose next hnext using hclosing
  choose previous hprevious using hopening
  refine ⟨⟨next, previous, ?_, ?_⟩, ?_⟩
  · intro p
    exact Subtype.ext ((hprevious (next p)).opening_unique (hnext p))
  · intro q
    exact Subtype.ext ((hnext (previous q)).closing_unique (hprevious q))
  · intro i j
    constructor
    · intro hm
      exact ⟨⟨i, hm.opens⟩, rfl, hm.closing_unique (hnext ⟨i, hm.opens⟩)⟩
    · intro hpair
      obtain ⟨p, rfl, rfl⟩ := hpair
      exact hnext p

section Entries

variable {text : List Char} {s : List Int32} {forward backward : Table}
  {partner : Position text '[' ≃ Position text ']'}

/-- The matched pairs, each with its place in the text. -/
theorem matched_inside (hpartner : ∀ i j : Nat, square.Matched text i j ↔
      ∃ p : Position text '[', i = p ∧ j = partner p) (p : Position text '[') :
    (partner p : Nat) < text.length ∧ square.Matched text p (partner p) := by
  have hmatched := (hpartner p (partner p)).mpr ⟨p, rfl, rfl⟩
  exact ⟨(List.getElem?_eq_some_iff.mp hmatched.closes).1, hmatched⟩

theorem Filled.forward_entries (h : Filled text text.length s forward backward)
    (hpartner : ∀ i j : Nat, square.Matched text i j ↔
      ∃ p : Position text '[', i = p ∧ j = partner p) (k v : Int32) :
    forward.lookup k = some v ↔
      ∃ p : Position text '[', k = intOfSize p ∧ v = intOfSize (partner p) := by
  rw [h.forward k v]
  constructor
  · intro hentry
    obtain ⟨i, j, ⟨-, hmatched⟩, hk, hv⟩ := hentry
    obtain ⟨p, rfl, rfl⟩ := (hpartner i j).mp hmatched
    exact ⟨p, hk, hv⟩
  · intro hentry
    obtain ⟨p, hk, hv⟩ := hentry
    exact ⟨p, partner p, matched_inside hpartner p, hk, hv⟩

theorem Filled.backward_entries (h : Filled text text.length s forward backward)
    (hpartner : ∀ i j : Nat, square.Matched text i j ↔
      ∃ p : Position text '[', i = p ∧ j = partner p) (k v : Int32) :
    backward.lookup k = some v ↔
      ∃ q : Position text ']', k = intOfSize q ∧ v = intOfSize (partner.symm q) := by
  rw [h.backward k v]
  constructor
  · intro hentry
    obtain ⟨j, i, ⟨-, hmatched⟩, hk, hv⟩ := hentry
    obtain ⟨p, rfl, rfl⟩ := (hpartner i j).mp hmatched
    exact ⟨partner p, hk, by rw [partner.symm_apply_apply]; exact hv⟩
  · intro hentry
    obtain ⟨q, hk, hv⟩ := hentry
    have hmatched := matched_inside hpartner (partner.symm q)
    rw [partner.apply_symm_apply] at hmatched
    exact ⟨q, partner.symm q, hmatched, hk, hv⟩

end Entries

/-- `forward` and `backward` have these entries and no others; what the program
reads back from them, `sizeOfInt` of an entry, is the position itself. -/
theorem jump_tables_correct (text : List Char) (short : text.length < 2 ^ 31) :
    ((prepareJumpTable text).isSome ↔ Balanced text) ∧
      ∀ forward backward, prepareJumpTable text = some (forward, backward) →
        ∃ partner : Position text '[' ≃ Position text ']',
          (∀ k v, forward.lookup k = some v ↔
            ∃ p : Position text '[', k = intOfSize p ∧ v = intOfSize (partner p)) ∧
          (∀ k v, backward.lookup k = some v ↔
            ∃ q : Position text ']', k = intOfSize q ∧ v = intOfSize (partner.symm q)) ∧
          ∀ p : Position text '[', (p : Nat) < partner p ∧
            Balanced (segment text (p + 1) (partner p)) := by
  have hloop := prepareLoop_filled short (Filled.start text) (List.drop_zero)
  unfold prepareJumpTable
  cases hresult : prepareLoop 0 text [] ∅ ∅ with
  | none =>
    rw [hresult] at hloop
    refine ⟨by simpa [balanced_iff_wellNested] using hloop, ?_⟩
    intro forward backward h
    cases h
  | some result =>
    obtain ⟨s, forward, backward⟩ := result
    rw [hresult] at hloop
    obtain ⟨stack, hscan, hstack⟩ := hloop.scanned
    subst hstack
    rw [balanced_iff_wellNested, hscan.wellNested_iff_nil]
    cases stack with
    | cons top stack =>
      refine ⟨by simp, ?_⟩
      intro forward backward h
      cases h
    | nil =>
      refine ⟨by simp, ?_⟩
      intro forward' backward' h
      cases h
      obtain ⟨partner, hpartner⟩ := matching hscan
      refine ⟨partner, hloop.forward_entries hpartner, hloop.backward_entries hpartner, ?_⟩
      intro p
      have hmatched := (matched_inside hpartner p).2
      exact ⟨hmatched.before, balanced_iff_wellNested.mpr hmatched.between⟩

theorem jump_tables_correct_nested :
    (prepareJumpTable "+[-[]>]".toList).isSome = true ∧ Balanced "+[-[]>]".toList := by
  have hreturned : (prepareJumpTable "+[-[]>]".toList).isSome = true := by decide
  exact ⟨hreturned, (jump_tables_correct "+[-[]>]".toList (by decide)).1.mp hreturned⟩

end CppCodes.Guarantees.JumpTables
