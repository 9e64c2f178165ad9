import CppCodes.Source.Treap.TreapMap

/-!
# The treap is a finite map

Whatever priorities are drawn, every answer of the treap is that of a finite map
whose keys are the classes that the comparison cannot tell apart.
-/

set_option autoImplicit false

namespace CppCodes.Guarantees.TreapRefinement

open CppCodes.Library CppCodes.Library.KeyedList
open CppCodes.Source.Treap

variable {K V : Type} (comp : K → K → Bool) [IsStrictWeakOrder K fun a b => comp a b = true]

/-- A finite map keyed by classes of keys. -/
abbrev Reference (V : Type) : Type := Finmap fun _ : Class comp => V

namespace Reference

variable {comp}

def apply (m : Reference comp V) : Op K V → Reference comp V × Result V
  | .insert key value =>
      if classOf comp key ∈ m then (m, .flag false)
      else (Finmap.insert (classOf comp key) value m, .flag true)
  | .insertOrAssign key value =>
      (Finmap.insert (classOf comp key) value m, .flag (decide (classOf comp key ∉ m)))
  | .erase key => (Finmap.erase (classOf comp key) m, .flag (decide (classOf comp key ∈ m)))
  | .find key => (m, .value (m.lookup (classOf comp key)))
  | .contains key => (m, .flag (decide (classOf comp key ∈ m)))
  | .size => (m, .count m.keys.card)
  | .empty => (m, .flag (decide (m.keys = ∅)))
  | .clear => (∅, .done)

variable (comp) in
def machine : Machine (Reference comp V) (Op K V) (Result V) where
  step m op := some ((m.apply op).1, [(m.apply op).2])

end Reference

/-- The treap holds what the map holds, and counts it right. -/
structure Refines (t : TreapMap K V) (m : Reference comp V) : Prop where
  entries : Represents comp t.root.entries m
  size : t.size = m.keys.card

variable {comp}

theorem refines_empty : Refines comp ({} : TreapMap K V) ∅ := ⟨represents_empty, rfl⟩

section Steps

variable {t : TreapMap K V} {m : Reference comp V}

theorem Refines.lookup (h : Refines comp t m) (key : K) :
    KeyedList.lookup comp key t.root.entries = m.lookup (classOf comp key) :=
  (h.entries.lookup key).symm

/-- Both insertions, in terms of whether the key was there. -/
theorem Refines.insertWith (h : Refines comp t m) (draw : Nat → UInt32) (assignOnMatch : Bool)
    (key : K) (value : V) :
    (t.insertWith comp draw assignOnMatch key value).2 = decide (classOf comp key ∉ m) ∧
      Refines comp (t.insertWith comp draw assignOnMatch key value).1
        (m.insert (classOf comp key)
          (if assignOnMatch then value else (m.lookup (classOf comp key)).getD value)) := by
  obtain ⟨hentries, hnew⟩ :=
    Node.insertImpl_spec h.entries.sorted assignOnMatch key value (draw t.drawn)
  have hrep := h.entries.insert assignOnMatch key value
  rw [← hentries] at hrep
  have hkeys := keys_insert (m := m) (classOf comp key)
    (if assignOnMatch then value else (m.lookup (classOf comp key)).getD value)
  unfold TreapMap.insertWith
  dsimp only
  by_cases hmem : classOf comp key ∈ m
  · have hold : (t.root.insertImpl comp assignOnMatch key value (draw t.drawn)).2 = false := by
      rw [hnew, Option.isNone_eq_false_iff]
      exact (h.entries.mem_iff key).mp hmem
    rw [hold, if_neg Bool.false_ne_true]
    refine ⟨by simp [hmem], hrep, ?_⟩
    rw [hkeys, Finset.insert_eq_of_mem (Finmap.mem_keys.mpr hmem)]
    exact h.size
  · have hfresh : (t.root.insertImpl comp assignOnMatch key value (draw t.drawn)).2 = true := by
      rw [hnew, h.lookup, Finmap.lookup_eq_none.mpr hmem]
      rfl
    rw [hfresh, if_pos rfl]
    refine ⟨by simp [hmem], hrep, ?_⟩
    rw [hkeys, Finset.card_insert_of_notMem fun hc => hmem (Finmap.mem_keys.mp hc)]
    exact congrArg (· + 1) h.size

theorem insert_lookup_self {c : Class comp} {v : V} (h : m.lookup c = some v) :
    m.insert c v = m := by
  refine Finmap.ext_lookup ?_
  intro c'
  by_cases hc : c' = c
  · rw [hc, Finmap.lookup_insert, h]
  · rw [Finmap.lookup_insert_of_ne _ hc]

theorem Refines.erase (h : Refines comp t m) (key : K) :
    (t.erase comp key).2 = decide (classOf comp key ∈ m) ∧
      Refines comp (t.erase comp key).1 (m.erase (classOf comp key)) := by
  obtain ⟨hentries, hthere⟩ := Node.eraseImpl_spec h.entries.sorted key
  have hrep := h.entries.erase key
  rw [← hentries] at hrep
  have hkeys := Finmap.keys_erase (classOf comp key) m
  unfold TreapMap.erase
  dsimp only
  by_cases hmem : classOf comp key ∈ m
  · have hremoved : (t.root.eraseImpl comp key).2 = true := by
      rw [hthere]
      exact (h.entries.mem_iff key).mp hmem
    rw [hremoved, if_pos rfl]
    refine ⟨by simp [hmem], hrep, ?_⟩
    rw [hkeys, Finset.card_erase_of_mem (Finmap.mem_keys.mpr hmem)]
    exact congrArg (· - 1) h.size
  · have hkept : (t.root.eraseImpl comp key).2 = false := by
      rw [hthere, h.lookup, Finmap.lookup_eq_none.mpr hmem]
      rfl
    rw [hkept, if_neg Bool.false_ne_true]
    refine ⟨by simp [hmem], hrep, ?_⟩
    rw [hkeys, Finset.erase_eq_of_notMem fun hc => hmem (Finmap.mem_keys.mp hc)]
    exact h.size

theorem Refines.find (h : Refines comp t m) (key : K) :
    t.find comp key = m.lookup (classOf comp key) := by
  rw [TreapMap.find, Node.find_spec h.entries.sorted, h.lookup]

theorem Refines.contains (h : Refines comp t m) (key : K) :
    t.contains comp key = decide (classOf comp key ∈ m) := by
  rw [TreapMap.contains, h.find, Bool.eq_iff_iff, decide_eq_true_iff]
  exact Finmap.lookup_isSome

theorem Refines.empty (h : Refines comp t m) : t.empty = decide (m.keys = ∅) := by
  rw [TreapMap.empty, h.size, Bool.eq_iff_iff, decide_eq_true_iff, beq_iff_eq,
    Finset.card_eq_zero]

/-- One operation: the same answer, and the treap still holds the map. -/
theorem step_refines (h : Refines comp t m) (draw : Nat → UInt32) (op : Op K V) :
    (t.apply comp draw op).2 = (m.apply op).2 ∧
      Refines comp (t.apply comp draw op).1 (m.apply op).1 := by
  cases op with
  | insert key value =>
    obtain ⟨hflag, hrefines⟩ := h.insertWith draw false key value
    rw [if_neg Bool.false_ne_true] at hrefines
    unfold Reference.apply
    dsimp only
    by_cases hmem : classOf comp key ∈ m
    · obtain ⟨old, hold⟩ := Option.isSome_iff_exists.mp (Finmap.lookup_isSome.mpr hmem)
      rw [hold, Option.getD_some, insert_lookup_self hold] at hrefines
      rw [if_pos hmem]
      exact ⟨congrArg Result.flag (hflag.trans (by simp [hmem])), hrefines⟩
    · rw [Finmap.lookup_eq_none.mpr hmem, Option.getD_none] at hrefines
      rw [if_neg hmem]
      exact ⟨congrArg Result.flag (hflag.trans (by simp [hmem])), hrefines⟩
  | insertOrAssign key value =>
    obtain ⟨hflag, hrefines⟩ := h.insertWith draw true key value
    rw [if_pos rfl] at hrefines
    exact ⟨congrArg Result.flag hflag, hrefines⟩
  | erase key =>
    obtain ⟨hflag, hrefines⟩ := h.erase key
    exact ⟨congrArg Result.flag hflag, hrefines⟩
  | find key => exact ⟨congrArg Result.value (h.find key), h⟩
  | contains key => exact ⟨congrArg Result.flag (h.contains key), h⟩
  | size => exact ⟨congrArg Result.count h.size, h⟩
  | empty => exact ⟨congrArg Result.flag h.empty, h⟩
  | clear => exact ⟨rfl, represents_empty, rfl⟩

end Steps

/-- A run of the treap is a run of the finite map with the same answers. -/
theorem run_refines {draw : Nat → UInt32} {ops : List (Op K V)} {t : TreapMap K V}
    {results : List (Result V)} (h : (TreapMap.machine comp draw).Run {} ops t results) :
    ∃ m, (Reference.machine comp).Run ∅ ops m results ∧ Refines comp t m := by
  refine h.lockstep (R := fun t m => Refines comp t m) refines_empty ?_
  intro t m op u seen hrefines hstep
  obtain ⟨hresult, hnext⟩ := step_refines hrefines draw op
  simp only [TreapMap.machine, Option.some.injEq, Prod.mk.injEq] at hstep
  obtain ⟨rfl, rfl⟩ := hstep
  refine ⟨(m.apply op).1, ?_, hnext⟩
  rw [hresult]
  rfl

omit [IsStrictWeakOrder K fun a b => comp a b = true] in
theorem run_exists (comp : K → K → Bool) (draw : Nat → UInt32) (ops : List (Op K V)) :
    ∃ t results, (TreapMap.machine comp draw).Run {} ops t results :=
  Machine.run_total (fun _ _ => rfl) _ ops

/-- For any comparison that is a strict weak order, any priorities and any operations,
the answers are those of the finite map, the size is its number of keys, and other
priorities give the same answers. -/
theorem treap_refines_map (comp : K → K → Bool) [IsStrictWeakOrder K fun a b => comp a b = true]
    (draw : Nat → UInt32) (ops : List (Op K V)) :
    ∃ t m results, (TreapMap.machine comp draw).Run {} ops t results ∧
      (Reference.machine comp).Run ∅ ops m results ∧ t.size = m.keys.card ∧
      ∀ draw', ∃ t', (TreapMap.machine comp draw').Run {} ops t' results := by
  obtain ⟨t, results, hrun⟩ := run_exists comp draw ops
  obtain ⟨m, href, hrefines⟩ := run_refines hrun
  refine ⟨t, m, results, hrun, href, hrefines.size, ?_⟩
  intro draw'
  obtain ⟨t', results', hrun'⟩ := run_exists comp draw' ops
  obtain ⟨m', href', -⟩ := run_refines hrun'
  exact ⟨t', (href.deterministic href').2 ▸ hrun'⟩

/-! ## Numbers compared by their tens, all priorities equal -/

def byTens (a b : Nat) : Bool := a / 10 < b / 10

instance : IsStrictWeakOrder Nat fun a b => byTens a b = true where
  irrefl a := by simp [byTens]
  trans a b c hab hbc := by
    simp only [byTens, decide_eq_true_eq] at hab hbc ⊢
    omega
  incomp_trans a b c hab hbc := by
    simp only [byTens, decide_eq_true_eq] at hab hbc ⊢
    omega

def eightOps : List (Op Nat Nat) :=
  [.insert 12 1, .insert 15 2, .insertOrAssign 35 3, .insertOrAssign 31 4, .find 39, .size,
    .erase 11, .contains 12]

theorem treap_refines_map_by_tens :
    ∃ t m results, (TreapMap.machine byTens fun _ => 7).Run {} eightOps t results ∧
      (Reference.machine byTens).Run ∅ eightOps m results ∧
      results = [.flag true, .flag false, .flag true, .flag false, .value (some 4), .count 2,
        .flag true, .flag false] := by
  obtain ⟨t, m, results, hrun, href, -, -⟩ := treap_refines_map byTens (fun _ => 7) eightOps
  have hcomputed := Machine.run_of_isSome (m := TreapMap.machine byTens fun _ => 7) {} eightOps rfl
  refine ⟨t, m, results, hrun, href, ?_⟩
  rw [(hrun.deterministic hcomputed).2]
  decide

end CppCodes.Guarantees.TreapRefinement
