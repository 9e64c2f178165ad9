import CppCodes.Guarantees.TreapRefinement
import CppCodes.Source.Treap.Priorities

/-!
# The shape of the treap

In every state the tree is ordered by its keys, no child outranks its parent and
`size_` counts the nodes. The priorities then leave one tree for a set of nodes, so
that the history that led to it does not show.
-/

set_option autoImplicit false

namespace CppCodes.Guarantees.TreapShape

open CppCodes.Library
open CppCodes.Source.Treap
open CppCodes.Guarantees.TreapRefinement (byTens eightOps)

variable {K V : Type} {comp : K → K → Bool} [IsStrictWeakOrder K fun a b => comp a b = true]

/-- What every operation keeps. -/
structure Invariant (comp : K → K → Bool) (t : TreapMap K V) : Prop where
  sorted : KeyedList.Sorted comp t.root.entries
  heap : t.root.HeapOrdered
  size : t.size = t.root.count

omit [IsStrictWeakOrder K fun a b => comp a b = true] in
theorem Invariant.sortedSlots {t : TreapMap K V} (h : Invariant comp t) :
    KeyedList.Sorted comp t.root.slots := by
  have hsorted := h.sorted
  rw [Node.entries_eq_slots] at hsorted
  exact (KeyedList.sorted_map_values Prod.fst).mp hsorted

omit [IsStrictWeakOrder K fun a b => comp a b = true] in
theorem invariant_nil (drawn : Nat) : Invariant comp ({ drawn } : TreapMap K V) :=
  ⟨List.Pairwise.nil, trivial, rfl⟩

/-- The tree and the count after an insertion. -/
theorem insertWith_eq (comp : K → K → Bool) (draw : Nat → UInt32) (assignOnMatch : Bool)
    (t : TreapMap K V) (key : K) (value : V) :
    (t.insertWith comp draw assignOnMatch key value).1.root =
        (t.root.insertImpl comp assignOnMatch key value (draw t.drawn)).1 ∧
      (t.insertWith comp draw assignOnMatch key value).1.size = t.size +
        if (t.root.insertImpl comp assignOnMatch key value (draw t.drawn)).2 then 1 else 0 := by
  unfold TreapMap.insertWith
  dsimp only
  cases (t.root.insertImpl comp assignOnMatch key value (draw t.drawn)).2 <;> exact ⟨rfl, rfl⟩

/-- The tree and the count after an erasure. -/
theorem erase_eq (comp : K → K → Bool) (t : TreapMap K V) (key : K) :
    (t.erase comp key).1.root = (t.root.eraseImpl comp key).1 ∧
      (t.erase comp key).1.size =
        t.size - if (t.root.eraseImpl comp key).2 then 1 else 0 := by
  unfold TreapMap.erase
  dsimp only
  cases (t.root.eraseImpl comp key).2 <;> exact ⟨rfl, rfl⟩

theorem Invariant.insertWith {t : TreapMap K V} (h : Invariant comp t) (draw : Nat → UInt32)
    (assignOnMatch : Bool) (key : K) (value : V) :
    Invariant comp (t.insertWith comp draw assignOnMatch key value).1 := by
  obtain ⟨hroot, hsize⟩ := insertWith_eq comp draw assignOnMatch t key value
  obtain ⟨hentries, hnew⟩ := Node.insertImpl_spec h.sorted assignOnMatch key value (draw t.drawn)
  have hlength := KeyedList.length_insert h.sorted assignOnMatch key value
  refine ⟨?_, ?_, ?_⟩
  · rw [hroot, hentries]
    exact KeyedList.sorted_insert h.sorted assignOnMatch key value
  · rw [hroot]
    exact (Node.insertImpl_heap comp assignOnMatch key value (draw t.drawn) h.heap).1
  · rw [hsize, hroot, Node.count_eq, hentries, hlength, h.size, Node.count_eq, hnew]
    cases KeyedList.lookup comp key t.root.entries <;> rfl

theorem Invariant.erase {t : TreapMap K V} (h : Invariant comp t) (key : K) :
    Invariant comp (t.erase comp key).1 := by
  obtain ⟨hroot, hsize⟩ := erase_eq comp t key
  obtain ⟨hentries, hthere⟩ := Node.eraseImpl_spec h.sorted key
  have hlength := KeyedList.length_erase h.sorted key
  refine ⟨?_, ?_, ?_⟩
  · rw [hroot, hentries]
    exact KeyedList.sorted_erase h.sorted key
  · rw [hroot]
    exact (Node.eraseImpl_heap comp key h.heap).1
  · rw [hsize, hroot, Node.count_eq, hentries, h.size, Node.count_eq, hthere]
    omega

/-- One operation. -/
theorem step_invariant {t : TreapMap K V} (h : Invariant comp t) (draw : Nat → UInt32)
    (op : Op K V) : Invariant comp (t.apply comp draw op).1 := by
  cases op with
  | insert key value => exact h.insertWith draw false key value
  | insertOrAssign key value => exact h.insertWith draw true key value
  | erase key => exact h.erase key
  | clear => exact invariant_nil t.drawn
  | _ => exact h

theorem run_invariant {draw : Nat → UInt32} {ops : List (Op K V)} {t : TreapMap K V}
    {results : List (Result V)} (h : (TreapMap.machine comp draw).Run {} ops t results) :
    Invariant comp t := by
  refine h.invariant (I := fun t _ => Invariant comp t) (invariant_nil 0) ?_
  intro t results op u seen hinv hstep
  simp only [TreapMap.machine, Option.some.injEq, Prod.mk.injEq] at hstep
  rw [← hstep.1]
  exact step_invariant hinv draw op

/-- After any operations with any priorities the tree is ordered by key and by
priority, and `size_` is its number of nodes. -/
theorem treap_invariant (comp : K → K → Bool) [IsStrictWeakOrder K fun a b => comp a b = true]
    (draw : Nat → UInt32) (ops : List (Op K V)) (t : TreapMap K V) (results : List (Result V))
    (run : (TreapMap.machine comp draw).Run {} ops t results) :
    t.root.Ordered comp ∧ t.root.HeapOrdered ∧ t.size = t.root.count := by
  have hinv := run_invariant run
  exact ⟨Node.ordered_of_sorted hinv.sorted, hinv.heap, hinv.size⟩

/-- Numbers compared by their tens, all priorities equal. -/
theorem treap_invariant_by_tens :
    ∃ t results, (TreapMap.machine byTens fun _ => 7).Run {} (eightOps.take 6) t results ∧
      t.size = 2 ∧ t.root.Ordered byTens ∧ t.root.HeapOrdered ∧ t.size = t.root.count := by
  have hrun := Machine.run_of_isSome (m := TreapMap.machine byTens fun _ => 7) {}
    (eightOps.take 6) rfl
  exact ⟨_, _, hrun, rfl, treap_invariant byTens _ _ _ _ hrun⟩

/-! ## One tree for a set of nodes -/

/-- Two histories of operations, with any priorities drawn along the way, that leave
the same nodes leave the same tree, if no two priorities are equal; and inserting a
new key and erasing it again restores the tree, whatever priority was drawn. -/
theorem treap_shape_unique (comp : K → K → Bool) [IsStrictWeakOrder K fun a b => comp a b = true]
    (draw draw' : Nat → UInt32) (ops ops' : List (Op K V)) (t t' : TreapMap K V)
    (results results' : List (Result V))
    (run : (TreapMap.machine comp draw).Run {} ops t results)
    (run' : (TreapMap.machine comp draw').Run {} ops' t' results')
    (same : ∀ x, x ∈ t.root.slots ↔ x ∈ t'.root.slots)
    (distinct : (t.root.slots.map fun x => x.2.2).Nodup) :
    t.root = t'.root ∧
      ∀ key value assignOnMatch, t.contains comp key = false →
        ((t.insertWith comp draw assignOnMatch key value).1.erase comp key).1.root = t.root := by
  have hinv := run_invariant run
  have hunique : ∀ u : TreapMap K V, Invariant comp u → t.root.slots = u.root.slots →
      t.root = u.root := by
    intro u hu hslots
    apply Node.toTree_injective
    rw [Node.slots_eq_inorder, Node.slots_eq_inorder] at hslots
    refine HeapOrder.Heap.unique hinv.heap hu.heap hslots ?_
    rw [Node.slots_eq_inorder] at distinct
    have hnodup := distinct.map (f := UInt32.toNat) fun _ _ h => UInt32.toNat_inj.mp h
    rwa [List.map_map] at hnodup
  constructor
  · have hinv' := run_invariant run'
    exact hunique t' hinv' (KeyedList.sorted_unique hinv.sortedSlots hinv'.sortedSlots same)
  · intro key value assignOnMatch hnew
    have hfresh : KeyedList.lookup comp key t.root.slots = none := by
      rw [TreapMap.contains, TreapMap.find, Node.find_spec hinv.sorted, Node.entries_eq_slots,
        KeyedList.lookup_map_values Prod.fst] at hnew
      simpa using hnew
    have hinserted := hinv.insertWith draw assignOnMatch key value
    have hslots : (t.insertWith comp draw assignOnMatch key value).1.root.slots =
        KeyedList.insert comp false key (value, draw t.drawn) t.root.slots := by
      rw [(insertWith_eq comp draw assignOnMatch t key value).1]
      exact Node.insertImpl_slots hinv.sortedSlots assignOnMatch hfresh value (draw t.drawn)
    refine (hunique _ (hinserted.erase key) ?_).symm
    rw [(erase_eq comp _ key).1, Node.eraseImpl_slots hinserted.sortedSlots, hslots,
      KeyedList.erase_insert hfresh]

/-- Two keys inserted in turn, and the same two the other way round with a third one
in between that is erased. -/
theorem treap_shape_unique_two_histories :
    ∃ t t' results results',
      (TreapMap.machine byTens (([5, 9] : List UInt32).getD · 0)).Run {}
        [.insert 10 1, .insert 20 2] t results ∧
      (TreapMap.machine byTens (([9, 1, 5] : List UInt32).getD · 0)).Run {}
        [.insert 20 2, .insert 30 3, .erase 30, .insert 10 1] t' results' ∧
      t.root = t'.root ∧
      ((t.insertWith byTens (([5, 9] : List UInt32).getD · 0) true 40 4).1.erase byTens 40).1.root =
        t.root := by
  have hrun := Machine.run_of_isSome
    (m := TreapMap.machine byTens (([5, 9] : List UInt32).getD · 0)) {}
    [.insert 10 1, .insert 20 2] rfl
  have hrun' := Machine.run_of_isSome
    (m := TreapMap.machine byTens (([9, 1, 5] : List UInt32).getD · 0)) {}
    [.insert 20 2, .insert 30 3, .erase 30, .insert 10 1] rfl
  obtain ⟨hroot, hback⟩ := treap_shape_unique byTens _ _ _ _ _ _ _ _ hrun hrun'
    (fun x => Iff.rfl) (by decide)
  exact ⟨_, _, _, _, hrun, hrun', hroot, hback 40 4 true (by decide)⟩

end CppCodes.Guarantees.TreapShape
