import CppCodes.Guarantees.TreapBlocks
import CppCodes.Source.Treap.MovedMaps
import Mathlib.Logic.Equiv.Basic

/-!
# Who owns the nodes

Every node in memory belongs to exactly one map, through constructions, moves (of a map to
itself too), operations that return or throw, and destructions. A member keeps to the nodes of
its own map and to new ones; a move hands over all of them.
-/

set_option autoImplicit false

namespace CppCodes.Guarantees.TreapOwnership

open CppCodes.Library CppCodes.Library.Code
open CppCodes.Source.Treap CppCodes.Source.Treap.Linked
open CppCodes.Guarantees.TreapBlocks

variable {K V : Type}

/-- The object `i` owns the nodes `owns i`. -/
structure Owned (w : World K V) (owns : Nat → List Nat) : Prop where
  live : ∀ i o, w.objects i = some o → ∃ t, Holds w.heap o.root t (owns i) ∧ o.size = t.count
  dead : ∀ i, w.objects i = none → owns i = []
  nodup : ∀ i, (owns i).Nodup
  apart : ∀ i j, i ≠ j → (owns i).Disjoint (owns j)
  all : ∀ a, (w.heap.block a).isSome = true → ∃ i, a ∈ owns i

section Worlds

variable {w : World K V} {owns : Nat → List Nat} {i j : Nat} {o o' : Object} (I : Instance K V)

theorem owned_start : Owned ({} : World K V) fun _ => [] where
  live _ _ h := by cases h
  dead _ _ := rfl
  nodup _ := List.nodup_nil
  apart _ _ _ := List.disjoint_nil_left _
  all a h := by cases h

theorem Owned.allocated (h : Owned w owns) {a : Nat} (ha : a ∈ owns i) :
    (w.heap.block a).isSome = true := by
  cases hi : w.objects i with
  | none =>
    rw [h.dead i hi] at ha
    cases ha
  | some o =>
    obtain ⟨t, hold, -⟩ := h.live i o hi
    exact allocated_of_holds hold a ha

theorem Owned.others (h : Owned w owns) (hji : j ≠ i) {a : Nat} (ha : a ∈ owns j) :
    a < w.heap.next ∧ a ∉ owns i :=
  ⟨isSome_lt (h.allocated ha), fun hin => h.apart j i hji ha hin⟩

/-- What a member of the object `i` does is not seen by the others. -/
theorem Owned.frame (h : Owned w owns) {heap : BlockHeap (Cell K V)} {now : List Nat}
    (settled : Settled w.heap (owns i) heap now) (hji : j ≠ i) {p : Option Nat} {t : Node K V}
    (hold : Holds w.heap p t (owns j)) : Holds heap p t (owns j) := by
  apply hold.frame
  intro a ha
  obtain ⟨hlt, hout⟩ := h.others hji ha
  exact settled.outside a hlt hout

/-- A member of the object `i` has been called, which stays or goes. -/
theorem Owned.call (h : Owned w owns) {heap : BlockHeap (Cell K V)} {now : List Nat}
    (settled : Settled w.heap (owns i) heap now) (nodup : now.Nodup) (after : Option Object)
    (stands : ∀ o, after = some o → ∃ t, Holds heap o.root t now ∧ o.size = t.count)
    (gone : after = none → now = []) (calls : Nat) :
    Owned { w with heap, calls, objects := Function.update w.objects i after }
      (Function.update owns i now) := by
  have hapart : ∀ j, j ≠ i → now.Disjoint (owns j) := by
    intro j hj a hnow ha
    obtain ⟨hlt, hout⟩ := h.others hj ha
    rcases settled.own a hnow with hin | hnew
    · exact hout hin
    · exact absurd hnew (Nat.not_le.mpr hlt)
  constructor
  · intro j o hj
    by_cases hji : j = i
    · subst hji
      dsimp only at hj
      rw [Function.update_self] at hj ⊢
      exact stands o hj
    · dsimp only at hj
      rw [Function.update_of_ne hji] at hj ⊢
      obtain ⟨t, hold, hsize⟩ := h.live j o hj
      exact ⟨t, h.frame settled hji hold, hsize⟩
  · intro j hj
    by_cases hji : j = i
    · subst hji
      dsimp only at hj
      rw [Function.update_self] at hj ⊢
      exact gone hj
    · dsimp only at hj
      rw [Function.update_of_ne hji] at hj ⊢
      exact h.dead j hj
  · intro j
    by_cases hji : j = i
    · subst hji
      rw [Function.update_self]
      exact nodup
    · rw [Function.update_of_ne hji]
      exact h.nodup j
  · intro j k hjk
    by_cases hj : j = i
    · have hk : k ≠ i := fun hk => hjk (hj.trans hk.symm)
      rw [hj, Function.update_self, Function.update_of_ne hk]
      exact hapart k hk
    · rw [Function.update_of_ne hj]
      by_cases hk : k = i
      · rw [hk, Function.update_self]
        exact (hapart j hj).symm
      · rw [Function.update_of_ne hk]
        exact h.apart j k hjk
  · intro a ha
    rcases settled.covered a ha with hnow | ⟨hlt, hout⟩
    · exact ⟨i, by rwa [Function.update_self]⟩
    · dsimp only at ha
      rw [settled.outside a hlt hout] at ha
      obtain ⟨j, hj⟩ := h.all a ha
      have hji : j ≠ i := by
        rintro rfl
        exact hout hj
      exact ⟨j, by rwa [Function.update_of_ne hji]⟩

theorem Owned.construct (h : Owned w owns) (hi : w.objects i = none) (rng generators : Nat) :
    Owned { w with generators, objects := Function.update w.objects i (some { rng }) } owns := by
  refine ⟨fun j o hj => ?_, fun j hj => ?_, h.nodup, h.apart, h.all⟩
  · by_cases hji : j = i
    · subst hji
      dsimp only at hj
      rw [Function.update_self] at hj
      cases hj
      rw [h.dead j hi]
      exact ⟨.nil, Holds.nil, rfl⟩
    · dsimp only at hj
      rw [Function.update_of_ne hji] at hj
      exact h.live j o hj
  · by_cases hji : j = i
    · subst hji
      exact h.dead j hi
    · dsimp only at hj
      rw [Function.update_of_ne hji] at hj
      exact h.dead j hj

/-- All the nodes of `j` become those of `i`, which had none. -/
theorem Owned.take (h : Owned w owns) (hj : w.objects j = some o) (hne : i ≠ j)
    (hi : owns i = []) : Owned (w.take i j o) fun k => owns (Equiv.swap i j k) := by
  constructor
  · intro k o' hk
    unfold World.take at hk ⊢
    dsimp only at hk ⊢
    by_cases hki : k = i
    · subst hki
      rw [Function.update_self] at hk
      cases hk
      rw [Equiv.swap_apply_left]
      exact h.live j o hj
    · rw [Function.update_of_ne hki] at hk
      by_cases hkj : k = j
      · subst hkj
        rw [Function.update_self] at hk
        cases hk
        rw [Equiv.swap_apply_right, hi]
        exact ⟨.nil, Holds.nil, rfl⟩
      · rw [Function.update_of_ne hkj] at hk
        rw [Equiv.swap_apply_of_ne_of_ne hki hkj]
        exact h.live k o' hk
  · intro k hk
    unfold World.take at hk
    dsimp only at hk
    by_cases hki : k = i
    · subst hki
      rw [Function.update_self] at hk
      cases hk
    · rw [Function.update_of_ne hki] at hk
      by_cases hkj : k = j
      · subst hkj
        rw [Function.update_self] at hk
        cases hk
      · rw [Function.update_of_ne hkj] at hk
        rw [Equiv.swap_apply_of_ne_of_ne hki hkj]
        exact h.dead k hk
  · exact fun k => h.nodup _
  · exact fun k l hkl => h.apart _ _ fun he => hkl ((Equiv.swap i j).injective he)
  · intro a ha
    obtain ⟨k, hk⟩ := h.all a ha
    exact ⟨Equiv.swap i j k, by rwa [Equiv.swap_apply_self]⟩

theorem Owned.depth (h : Owned w owns) (hi : w.objects i = some o) :
    ∃ t, Holds (w.memory o).heap (w.memory o).root t (owns i) ∧ t.count < (w.memory o).size + 1 ∧
      Represents (w.memory o) { root := t, size := o.size, drawn := o.drawn } := by
  obtain ⟨t, hold, hsize⟩ := h.live i o hi
  exact ⟨t, hold, Nat.lt_succ_of_le (Nat.le_of_eq hsize.symm), ⟨owns i, hold, h.nodup i⟩, rfl, hsize,
    rfl⟩

/-- `clear` of one of the objects. -/
theorem Owned.clear (h : Owned w owns) (hi : w.objects i = some o) :
    ∃ m, clear (w.memory o) = .done () m ∧ m.root = none ∧ m.size = 0 ∧
      Settled w.heap (owns i) m.heap [] := by
  obtain ⟨t, hold, hdepth, -⟩ := h.depth hi
  rcases (clear_settles (R := fun _ => False) hold (h.nodup i) hdepth).cases with
    ⟨_, m, hdone, hroot, hsize, hsettled⟩ | ⟨m, -, hfalse⟩
  · exact ⟨m, hdone, hroot, hsize, hsettled⟩
  · exact hfalse.elim

theorem step_owned (h : Owned w owns) {action : Linked.Action K V} {w' : World K V}
    {seen : List (Event V)} (hstep : w.step I action = some (w', seen)) :
    (∃ owns', Owned w' owns') ∧ Event.fault ∉ seen := by
  cases action with
  | construct i =>
    unfold World.step at hstep
    dsimp only at hstep
    cases hi : w.objects i with
    | some o =>
      rw [hi] at hstep
      cases hstep
    | none =>
      rw [hi] at hstep
      cases hstep
      exact ⟨⟨owns, h.construct hi _ _⟩, List.not_mem_nil⟩
  | moveConstruct i j =>
    unfold World.step at hstep
    dsimp only at hstep
    split at hstep
    · rename_i o hi hj
      cases hstep
      have hne : i ≠ j := by
        rintro rfl
        rw [hi] at hj
        cases hj
      exact ⟨⟨_, h.take hj hne (h.dead i hi)⟩, List.not_mem_nil⟩
    · cases hstep
  | moveAssign i j =>
    unfold World.step at hstep
    dsimp only at hstep
    split at hstep
    · rename_i o o' hi hj
      split at hstep
      · cases hstep
        exact ⟨⟨owns, h⟩, List.not_mem_nil⟩
      · rename_i hne
        obtain ⟨m, hdone, hroot, hsize, hsettled⟩ := h.clear hi
        rw [hdone] at hstep
        cases hstep
        have hcleared := h.call hsettled List.nodup_nil
          (some { o with root := m.root, size := m.size, drawn := m.drawn })
          (fun o hsome => by
            cases hsome
            rw [hroot, hsize]
            exact ⟨.nil, Holds.nil, rfl⟩) (fun _ => rfl) m.calls
        have hj' : (w.afterCall i o m).objects j = some o' :=
          (Function.update_of_ne (Ne.symm hne) _ _).trans hj
        exact ⟨⟨_, hcleared.take hj' hne (Function.update_self ..)⟩, List.not_mem_nil⟩
    · cases hstep
  | perform i op =>
    unfold World.step at hstep
    dsimp only at hstep
    cases hi : w.objects i with
    | none =>
      rw [hi] at hstep
      cases hstep
    | some o =>
      rw [hi] at hstep
      dsimp only at hstep
      obtain ⟨t, hold, hdepth, hrep⟩ := h.depth hi
      have hspec := (hrep.perform (I.client o.rng) op).and
        (perform_settles (I.client o.rng) hold (h.nodup i) hdepth op)
      rcases hspec.cases with ⟨r, m, hdone, ⟨-, hrep'⟩, t', now, hold', hnodup, hsettled⟩ |
        ⟨m, hthrew, -⟩
      · rw [hdone] at hstep
        cases hstep
        refine ⟨⟨_, h.call hsettled hnodup
          (some { o with root := m.root, size := m.size, drawn := m.drawn }) ?_ (by simp) m.calls⟩,
          by simp⟩
        intro o hsome
        cases hsome
        obtain ⟨addrs, hold'', -⟩ := hrep'.tree
        refine ⟨t', hold', ?_⟩
        rw [(holds_unique hold' hold'').1]
        exact hrep'.size.trans hrep'.count
      · rw [hthrew] at hstep
        cases hstep
        obtain ⟨hsize, ⟨t', hold', hcount⟩, hsettled⟩ := perform_threw (I.client o.rng) hold op hthrew
        refine ⟨⟨_, h.call hsettled (h.nodup i)
          (some { o with root := m.root, size := m.size, drawn := m.drawn }) ?_ (by simp) m.calls⟩,
          by simp⟩
        intro o hsome
        cases hsome
        refine ⟨t', hold', ?_⟩
        rw [hcount]
        exact hsize.trans hrep.count
  | destruct i =>
    unfold World.step at hstep
    dsimp only at hstep
    cases hi : w.objects i with
    | none =>
      rw [hi] at hstep
      cases hstep
    | some o =>
      rw [hi] at hstep
      dsimp only at hstep
      obtain ⟨m, hdone, -, -, hsettled⟩ := h.clear hi
      rw [hdone] at hstep
      cases hstep
      exact ⟨⟨_, h.call hsettled List.nodup_nil none (by simp) (fun _ => rfl) m.calls⟩,
        List.not_mem_nil⟩

theorem run_owned {actions : List (Linked.Action K V)} {trace : List (Event V)}
    (h : (World.machine I).Run {} actions w trace) : (∃ owns, Owned w owns) ∧ Event.fault ∉ trace := by
  apply h.invariant (I := fun w trace => (∃ owns, Owned w owns) ∧ Event.fault ∉ trace)
  · exact ⟨⟨_, owned_start⟩, List.not_mem_nil⟩
  · intro w trace action w' seen hI hstep
    obtain ⟨⟨owns, howned⟩, hfault⟩ := hI
    obtain ⟨howned', hfault'⟩ := step_owned I howned hstep
    refine ⟨howned', fun hin => ?_⟩
    rcases List.mem_append.mp hin with hbefore | hnow
    · exact hfault hbefore
    · exact hfault' hnow

/-- In every program over any number of maps, whatever calls throw, nothing undefined is done, and
each node in memory is in the tree of exactly one map, whose size counts them. So once all maps are
destroyed, no node is left. -/
theorem maps_own_their_nodes (I : Instance K V) {actions : List (Linked.Action K V)} {w : World K V}
    {trace : List (Event V)} (h : (World.machine I).Run {} actions w trace) :
    Event.fault ∉ trace ∧
      (∃ owns : Nat → List Nat,
        (∀ i o, w.objects i = some o →
          ∃ t, Holds w.heap o.root t (owns i) ∧ (owns i).Nodup ∧ o.size = t.count) ∧
        (∀ i, w.objects i = none → owns i = []) ∧
        ∀ a, (w.heap.block a).isSome = true ↔ ∃! i, a ∈ owns i) ∧
      ((∀ i, w.objects i = none) → ∀ a, w.heap.block a = none) := by
  obtain ⟨⟨owns, howned⟩, hfault⟩ := run_owned I h
  refine ⟨hfault, ⟨owns, fun i o hi => ?_, howned.dead, fun a => ⟨fun ha => ?_, fun ha => ?_⟩⟩,
    fun hdead a => ?_⟩
  · obtain ⟨t, hold, hsize⟩ := howned.live i o hi
    exact ⟨t, hold, howned.nodup i, hsize⟩
  · obtain ⟨i, hi⟩ := howned.all a ha
    refine ⟨i, hi, fun j hj => ?_⟩
    by_contra hne
    exact howned.apart j i hne hj hi
  · obtain ⟨i, hi, -⟩ := ha
    exact howned.allocated hi
  · by_contra hne
    obtain ⟨i, hi⟩ := howned.all a (Option.isSome_iff_ne_none.mpr hne)
    rw [howned.dead i (hdead i)] at hi
    cases hi

end Worlds

/-! ## Three maps, one call that throws -/

/-- Numbers in order, all of one priority, where the call number `k` throws. -/
def failingAt (k : Nat) : Instance Int Int where
  comp a b := decide (a < b)
  seeded _ _ := 0
  throwsAt _ n := n == k
  torn _ _ := 0

/-- Two nodes go from the map 0 to the map 1, which fails to get another one, and on to the map 2,
whose own node goes. -/
def handedOn : List (Linked.Action Int Int) :=
  [.construct 0, .perform 0 (.insert 2 20), .perform 0 (.insert 1 10), .moveConstruct 1 0,
    .perform 1 (.insert 3 30), .construct 2, .perform 2 (.insert 5 50), .moveAssign 2 1,
    .moveAssign 2 2, .destruct 0, .destruct 1, .perform 2 .size, .destruct 2]

theorem maps_own_their_nodes_handed_on :
    ∃ w, (World.machine (failingAt 9)).Run {} handedOn w
        [.result (.flag true), .result (.flag true), .threw, .result (.flag true),
          .result (.count 2)] ∧
      ∃ owns : Nat → List Nat, (∀ i, w.objects i = none → owns i = []) ∧
        ∀ a, (w.heap.block a).isSome = true ↔ ∃! i, a ∈ owns i := by
  have hrun : ∃ w, (World.machine (failingAt 9)).Run {} handedOn w
      [.result (.flag true), .result (.flag true), .threw, .result (.flag true),
        .result (.count 2)] := Machine.run_of_trace (by decide +kernel)
  obtain ⟨w, hrun⟩ := hrun
  obtain ⟨-, ⟨owns, -, hdead, hall⟩, -⟩ := maps_own_their_nodes (failingAt 9) hrun
  exact ⟨w, hrun, owns, hdead, hall⟩

end CppCodes.Guarantees.TreapOwnership
