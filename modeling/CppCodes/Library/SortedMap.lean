import Mathlib.Data.List.Pairwise
import Mathlib.Order.Bounds.Basic
import Mathlib.Order.Lattice
import Mathlib.Tactic.Common

/-!
# Ordered maps

An ordered map is its list of entries in ascending order of the keys, which is
what an iterator sees. `first?` and `last?` are the ends of the iteration: the
entries with the least and the greatest key. Maps with the same lookups are equal.
-/

set_option autoImplicit false

namespace CppCodes.Library

structure SortedMap (K V : Type*) [LinearOrder K] where
  entries : List (K × V)
  sorted : entries.Pairwise fun a b => a.1 < b.1

namespace SortedMap

variable {K V : Type*} [LinearOrder K]

def insertEntry (k : K) (v : V) : List (K × V) → List (K × V)
  | [] => [(k, v)]
  | (k', v') :: rest =>
      if k < k' then (k, v) :: (k', v') :: rest
      else if k = k' then (k, v) :: rest
      else (k', v') :: insertEntry k v rest

theorem mem_insertEntry {k : K} {v : V} {e : K × V} {l : List (K × V)}
    (h : e ∈ insertEntry k v l) : e = (k, v) ∨ e ∈ l := by
  induction l with
  | nil => exact Or.inl (List.mem_singleton.mp h)
  | cons head rest ih =>
    unfold insertEntry at h
    split at h
    · rcases List.mem_cons.mp h with he | hold
      · exact Or.inl he
      · exact Or.inr hold
    · split at h
      · rcases List.mem_cons.mp h with he | hold
        · exact Or.inl he
        · exact Or.inr (List.mem_cons_of_mem _ hold)
      · rcases List.mem_cons.mp h with he | hold
        · exact Or.inr (he ▸ List.mem_cons_self)
        · rcases ih hold with he | hmem
          · exact Or.inl he
          · exact Or.inr (List.mem_cons_of_mem _ hmem)

theorem sorted_insertEntry (k : K) (v : V) {l : List (K × V)}
    (h : l.Pairwise fun a b => a.1 < b.1) :
    (insertEntry k v l).Pairwise fun a b => a.1 < b.1 := by
  induction l with
  | nil => exact List.pairwise_singleton _ _
  | cons head rest ih =>
    obtain ⟨k', v'⟩ := head
    obtain ⟨hhead, hrest⟩ := List.pairwise_cons.mp h
    unfold insertEntry
    split
    · next hlt =>
      refine List.pairwise_cons.mpr ⟨?_, h⟩
      intro e he
      rcases List.mem_cons.mp he with rfl | hmem
      · exact hlt
      · exact lt_trans hlt (hhead e hmem)
    · next hge =>
      split
      · next heq =>
        subst heq
        exact List.pairwise_cons.mpr ⟨hhead, hrest⟩
      · next hne =>
        refine List.pairwise_cons.mpr ⟨?_, ih hrest⟩
        intro e he
        rcases mem_insertEntry he with rfl | hmem
        · exact lt_of_le_of_ne (not_lt.mp hge) (Ne.symm hne)
        · exact hhead e hmem

def empty : SortedMap K V := ⟨[], List.Pairwise.nil⟩

def insert (m : SortedMap K V) (k : K) (v : V) : SortedMap K V :=
  ⟨insertEntry k v m.entries, sorted_insertEntry k v m.sorted⟩

def erase (m : SortedMap K V) (k : K) : SortedMap K V :=
  ⟨m.entries.filter fun e => e.1 ≠ k, m.sorted.filter _⟩

def lookup (m : SortedMap K V) (k : K) : Option V :=
  (m.entries.find? fun e => e.1 = k).map Prod.snd

/-- The entry with the least (greatest) key. -/
def first? (m : SortedMap K V) : Option (K × V) := m.entries.head?
def last? (m : SortedMap K V) : Option (K × V) := m.entries.getLast?

instance [DecidableEq V] : DecidableEq (SortedMap K V) := fun a b =>
  decidable_of_iff (a.entries = b.entries) (by
    cases a
    cases b
    simp)

@[simp] theorem lookup_empty (k : K) : (empty : SortedMap K V).lookup k = none := rfl

theorem lookup_insert (m : SortedMap K V) (k : K) (v : V) (k' : K) :
    (m.insert k v).lookup k' = if k' = k then some v else m.lookup k' := by
  obtain ⟨l, hl⟩ := m
  unfold lookup insert
  dsimp only
  clear hl
  induction l with
  | nil =>
    by_cases he : k' = k
    · simp [insertEntry, he]
    · simp [insertEntry, he, Ne.symm he]
  | cons head rest ih =>
    obtain ⟨k₀, v₀⟩ := head
    unfold insertEntry
    split
    · by_cases he : k' = k
      · simp [he]
      · simp [he, Ne.symm he]
    · split
      · next heq =>
        subst heq
        by_cases he : k' = k
        · simp [he]
        · simp [he, Ne.symm he]
      · next hne =>
        by_cases hk : k₀ = k'
        · subst hk
          simp [Ne.symm hne]
        · simp only [List.find?_cons, decide_eq_false hk]
          exact ih

theorem lookup_erase (m : SortedMap K V) (k k' : K) :
    (m.erase k).lookup k' = if k' = k then none else m.lookup k' := by
  unfold lookup erase
  dsimp only
  rw [List.find?_filter]
  by_cases he : k' = k
  · subst he
    rw [if_pos rfl, Option.map_eq_none_iff, List.find?_eq_none]
    simp
  · rw [if_neg he]
    congr 2
    funext e
    by_cases hk : e.1 = k'
    · simp [hk, he]
    · simp [hk]

theorem lookup_eq_some_iff (m : SortedMap K V) (k : K) (v : V) :
    m.lookup k = some v ↔ (k, v) ∈ m.entries := by
  obtain ⟨l, hl⟩ := m
  unfold lookup
  dsimp only
  induction l with
  | nil => simp
  | cons head rest ih =>
    obtain ⟨hhead, hrest⟩ := List.pairwise_cons.mp hl
    by_cases hk : head.1 = k
    · subst hk
      rw [List.find?_cons_of_pos (by simp)]
      constructor
      · intro h
        cases h
        exact List.mem_cons_self
      · intro h
        rcases List.mem_cons.mp h with he | hmem
        · rw [← he]
          rfl
        · exact absurd (hhead _ hmem) (lt_irrefl _)
    · rw [List.find?_cons_of_neg (by simpa using hk), ih hrest, List.mem_cons]
      refine ⟨Or.inr, fun h => h.resolve_left ?_⟩
      intro he
      exact hk (congrArg Prod.fst he).symm

theorem ext_lookup {m m' : SortedMap K V} (h : ∀ k, m.lookup k = m'.lookup k) : m = m' := by
  have hmem : ∀ e, e ∈ m.entries ↔ e ∈ m'.entries := by
    intro e
    rw [← lookup_eq_some_iff m e.1 e.2, ← lookup_eq_some_iff m' e.1 e.2, h]
  have hasymm : ∀ a ∈ m.entries, ∀ b ∈ m'.entries, a.1 < b.1 → b.1 < a.1 → a = b :=
    fun a _ b _ hab hba => absurd hba (lt_asymm hab)
  have hnodup : ∀ {m : SortedMap K V}, m.entries.Nodup := fun {m} =>
    m.sorted.imp fun hlt he => absurd (he ▸ hlt) (lt_irrefl _)
  have hperm := (List.perm_ext_iff_of_nodup hnodup hnodup).mpr hmem
  have heq := hperm.eq_of_pairwise (fun a b ha hb hab hba => hasymm a ha b hb hab hba)
    m.sorted m'.sorted
  cases m
  cases m'
  cases heq
  rfl

/-- The keys that have a value. -/
def keys (m : SortedMap K V) : Set K := {k | ∃ v, m.lookup k = some v}

theorem mem_keys_iff (m : SortedMap K V) (k : K) : k ∈ m.keys ↔ ∃ e ∈ m.entries, e.1 = k := by
  constructor
  · intro ⟨v, hv⟩
    exact ⟨(k, v), (lookup_eq_some_iff m k v).mp hv, rfl⟩
  · intro ⟨e, he, hk⟩
    exact ⟨e.2, (lookup_eq_some_iff m k e.2).mpr (hk ▸ he)⟩

theorem isGreatest_of_last? {m : SortedMap K V} {e : K × V} (h : m.last? = some e) :
    IsGreatest m.keys e.1 := by
  obtain ⟨before, hentries⟩ := List.getLast?_eq_some_iff.mp h
  have hsorted := m.sorted
  rw [hentries, List.pairwise_append] at hsorted
  refine ⟨(mem_keys_iff m e.1).mpr ⟨e, by rw [hentries]; simp, rfl⟩, ?_⟩
  intro k hk
  obtain ⟨e', hmem, rfl⟩ := (mem_keys_iff m k).mp hk
  rw [hentries, List.mem_append, List.mem_singleton] at hmem
  rcases hmem with hbefore | rfl
  · exact (hsorted.2.2 e' hbefore e (List.mem_singleton_self e)).le
  · exact le_refl _

theorem isLeast_of_first? {m : SortedMap K V} {e : K × V} (h : m.first? = some e) :
    IsLeast m.keys e.1 := by
  obtain ⟨after, hentries⟩ := List.head?_eq_some_iff.mp h
  have hsorted := m.sorted
  rw [hentries, List.pairwise_cons] at hsorted
  refine ⟨(mem_keys_iff m e.1).mpr ⟨e, by rw [hentries]; simp, rfl⟩, ?_⟩
  intro k hk
  obtain ⟨e', hmem, rfl⟩ := (mem_keys_iff m k).mp hk
  rw [hentries, List.mem_cons] at hmem
  rcases hmem with rfl | hafter
  · exact le_refl _
  · exact (hsorted.1 e' hafter).le

/-- The greatest key and its value. -/
theorem last?_spec {m : SortedMap K V} {e : K × V} (h : m.last? = some e) :
    m.lookup e.1 = some e.2 ∧ ∀ k v, m.lookup k = some v → k ≤ e.1 :=
  ⟨(lookup_eq_some_iff m e.1 e.2).mpr (List.mem_of_getLast? h),
    fun _ v hk => (isGreatest_of_last? h).2 ⟨v, hk⟩⟩

/-- The least key and its value. -/
theorem first?_spec {m : SortedMap K V} {e : K × V} (h : m.first? = some e) :
    m.lookup e.1 = some e.2 ∧ ∀ k v, m.lookup k = some v → e.1 ≤ k :=
  ⟨(lookup_eq_some_iff m e.1 e.2).mpr (List.mem_of_head? h),
    fun _ v hk => (isLeast_of_first? h).2 ⟨v, hk⟩⟩

/-- A map without a greatest or least key has no keys. -/
theorem lookup_of_last?_none {m : SortedMap K V} (h : m.last? = none) (k : K) :
    m.lookup k = none := by
  have hentries : m.entries = [] := List.getLast?_eq_none_iff.mp h
  rw [lookup, hentries]
  rfl

theorem lookup_of_first?_none {m : SortedMap K V} (h : m.first? = none) (k : K) :
    m.lookup k = none := by
  have hentries : m.entries = [] := List.head?_eq_none_iff.mp h
  rw [lookup, hentries]
  rfl

end SortedMap

end CppCodes.Library
