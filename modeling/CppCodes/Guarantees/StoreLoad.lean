import CppCodes.Source.MemOrder.StoreLoad
import Mathlib.Data.Fintype.Card
import Mathlib.Tactic.FinCases

/-!
# What the store-load test can observe

In every order of the steps one of the two threads stores before the other one loads, so with
`seq_cst` not both loads take a zero, and the test makes all of its iterations. With the other
modes all four pairs may come up.
-/

set_option autoImplicit false

namespace CppCodes.Guarantees.StoreLoad

open CppCodes.Library (Machine Workers)
open CppCodes.Library.Workers
open CppCodes.Source.MemOrder

variable {mode : Mode} {stale : Fin 2 → Bool}

/-- A value that the test stores. -/
def Bit (v : Int32) : Prop := v = 0 ∨ v = 1

/-- The store of the thread has been made. -/
def stored : Pc → Bool
  | .store => false
  | _ => true

/-- What the steps keep. -/
structure Inv (mode : Mode) (s : Variables) (pcs : Fin 2 → Option Pc) : Prop where
  bits : Bit s.x ∧ Bit s.y ∧ Bit s.r1 ∧ Bit s.r2
  first : ∀ pc, pcs 0 = some pc → stored pc = true → s.x = 1
  second : ∀ pc, pcs 1 = some pc → stored pc = true → s.y = 1
  notBoth : mode = .seqCst → pcs 0 = some .returned → pcs 1 = some .returned → ¬ (s.r1 = 0 ∧ s.r2 = 0)

theorem bit_load {current : Int32} (h : Bit current) (older : Bool) : Bit (load mode older current) := by
  cases mode with
  | seqCst => exact h
  | relaxed =>
    cases older with
    | false => exact h
    | true => exact .inl rfl
  | acqRel =>
    cases older with
    | false => exact h
    | true => exact .inl rfl

theorem inv_start : Inv mode {} fun _ => none where
  bits := ⟨.inl rfl, .inl rfl, .inl rfl, .inl rfl⟩
  first _ h := by cases h
  second _ h := by cases h
  notBoth _ h := by cases h

theorem fin_two (k : Fin 2) : k = 0 ∨ k = 1 := by
  fin_cases k
  · exact .inl rfl
  · exact .inr rfl

theorem threads_keeps : Keeps (threads mode stale) (Inv mode) := by
  constructor
  · intro s pcs k inv hk
    refine ⟨inv.bits, fun pc hpc hstored => ?_, fun pc hpc hstored => ?_, fun hmode h0 h1 => ?_⟩
    · rcases update_eq_some_iff.mp hpc with ⟨-, rfl⟩ | ⟨-, hother⟩
      · cases hstored
      · exact inv.first pc hother hstored
    · rcases update_eq_some_iff.mp hpc with ⟨-, rfl⟩ | ⟨-, hother⟩
      · cases hstored
      · exact inv.second pc hother hstored
    · rcases update_eq_some_iff.mp h0 with ⟨-, hpc⟩ | ⟨-, h0⟩
      · cases hpc
      · rcases update_eq_some_iff.mp h1 with ⟨-, hpc⟩ | ⟨-, h1⟩
        · cases hpc
        · exact inv.notBoth hmode h0 h1
  · intro s pcs k pc next inv hk hstep
    obtain ⟨hx, hy, hr1, hr2⟩ := inv.bits
    cases pc with
    | store =>
      cases hstep
      rcases fin_two k with rfl | rfl
      · refine ⟨⟨.inr rfl, hy, hr1, hr2⟩, fun _ _ _ => rfl, fun pc hpc hstored => ?_,
          fun _ h0 _ => ?_⟩
        · rw [Function.update_of_ne Fin.zero_ne_one.symm] at hpc
          exact inv.second pc hpc hstored
        · rw [Function.update_self] at h0
          cases h0
      · refine ⟨⟨hx, .inr rfl, hr1, hr2⟩, fun pc hpc hstored => ?_, fun _ _ _ => rfl,
          fun _ _ h1 => ?_⟩
        · rw [Function.update_of_ne Fin.zero_ne_one] at hpc
          exact inv.first pc hpc hstored
        · rw [Function.update_self] at h1
          cases h1
    | load =>
      cases hstep
      rcases fin_two k with rfl | rfl
      · refine ⟨⟨hx, hy, bit_load hy _, hr2⟩, fun pc _ _ => inv.first _ hk rfl,
          fun pc hpc hstored => ?_, fun hmode _ h1 => ?_⟩
        · rw [Function.update_of_ne Fin.zero_ne_one.symm] at hpc
          exact inv.second pc hpc hstored
        · -- the other thread is at its end, so its store has been made
          rw [Function.update_of_ne Fin.zero_ne_one.symm] at h1
          have hone : s.y = 1 := inv.second _ h1 rfl
          subst hmode
          intro hzero
          have hload : s.y = 0 := hzero.1
          rw [hone] at hload
          exact absurd hload (by decide)
      · refine ⟨⟨hx, hy, hr1, bit_load hx _⟩, fun pc hpc hstored => ?_,
          fun pc _ _ => inv.second _ hk rfl, fun hmode h0 _ => ?_⟩
        · rw [Function.update_of_ne Fin.zero_ne_one] at hpc
          exact inv.first pc hpc hstored
        · rw [Function.update_of_ne Fin.zero_ne_one] at h0
          have hone : s.x = 1 := inv.first _ h0 rfl
          subst hmode
          intro hzero
          have hload : s.x = 0 := hzero.2
          rw [hone] at hload
          exact absurd hload (by decide)
    | returned => cases hstep

theorem threads_stops : Stops (threads mode stale) := by
  intro k pc s hfinished
  cases pc with
  | returned => rfl
  | _ => cases hfinished

def stepsLeft : Pc → Nat
  | .store => 2
  | .load => 1
  | .returned => 0

theorem threads_descends : Descends (threads mode stale) (Inv mode) stepsLeft := by
  intro s pcs k pc next _ _ hstep
  cases pc with
  | store =>
    cases hstep
    exact Nat.lt_succ_self 1
  | load =>
    cases hstep
    exact Nat.lt_succ_self 0
  | returned => cases hstep

theorem threads_goes {s : Variables} {pcs : Fin 2 → Option Pc} (_ : Inv mode s pcs) :
    Goes (threads mode stale) s pcs := by
  rintro ⟨k, pc, hk, hfinished⟩
  cases pc with
  | returned => cases hfinished
  | store => exact ⟨k, _, _, hk, rfl⟩
  | load => exact ⟨k, _, _, hk, rfl⟩

/-! ## The outcomes of an iteration -/

/-- Each order of the steps can be gone on with to the joins, and none is longer than eight. -/
theorem iteration_ends {actions : List (Workers.Action 2)} {t : State Variables Pc 2} {trace : List Unit}
    (run : (threads mode stale).machine.Run (start {}) actions t trace) :
    actions.length ≤ 8 ∧
      ∃ more u later, (threads mode stale).machine.Run t more u later ∧ u.joined = 2 := by
  have hlength := run_length_le threads_keeps threads_descends inv_start run
  exact ⟨hlength, run_completes threads_keeps threads_descends threads_goes threads_stops inv_start run⟩

theorem outcome_bits {p : Int32 × Int32} (h : Outcome mode p) :
    (Bit p.1 ∧ Bit p.2) ∧ (mode = .seqCst → p ≠ (0, 0)) := by
  obtain ⟨stale, actions, t, trace, run, hjoined, rfl⟩ := h
  have inv := run_invariant threads_keeps inv_start run
  obtain ⟨-, -, hr1, hr2⟩ := inv.bits
  have hreturned : ∀ k, t.locals k = some .returned := by
    intro k
    obtain ⟨pc, hpc, hfinished⟩ := finished_of_joined threads_stops run hjoined k
    cases pc with
    | returned => exact hpc
    | _ => cases hfinished
  refine ⟨⟨hr1, hr2⟩, fun hmode hzero => ?_⟩
  obtain ⟨h1, h2⟩ := Prod.mk.inj hzero
  exact inv.notBoth hmode (hreturned 0) (hreturned 1) ⟨h1, h2⟩

/-- The two threads take their steps in the order of `runs`. -/
def inTurn (t1 t2 : Fin 2) (runs : List (Fin 2)) : List (Workers.Action 2) :=
  .spawn t1 :: .spawn t2 :: runs.map .run ++ [.join t1, .join t2]

theorem outcome_of_exec (stale : Fin 2 → Bool) (actions : List (Workers.Action 2)) {p : Int32 × Int32}
    (h : ((threads mode stale).machine.exec (start {}) actions).map (fun next =>
      (next.1.joined, next.1.shared.r1, next.1.shared.r2)) = some (2, p)) : Outcome mode p := by
  obtain ⟨⟨t, trace⟩, hexec, hlast⟩ := Option.map_eq_some_iff.mp h
  obtain ⟨hjoined, hp⟩ := Prod.mk.inj hlast
  exact ⟨stale, actions, t, trace, hexec, hjoined, hp.symm⟩

theorem outcome_iff {p : Int32 × Int32} :
    Outcome mode p ↔ (Bit p.1 ∧ Bit p.2) ∧ (mode = .seqCst → p ≠ (0, 0)) := by
  constructor
  · exact outcome_bits
  · obtain ⟨a, b⟩ := p
    intro h
    obtain ⟨⟨h1, h2⟩, hzero⟩ := h
    dsimp only at h1 h2
    rcases h1 with rfl | rfl
    · rcases h2 with rfl | rfl
      · -- both loads are stale
        cases mode with
        | seqCst => exact absurd rfl (hzero rfl)
        | relaxed => exact outcome_of_exec (fun _ => true) (inTurn 0 1 [0, 1, 0, 1]) (by decide)
        | acqRel => exact outcome_of_exec (fun _ => true) (inTurn 0 1 [0, 1, 0, 1]) (by decide)
      · cases mode <;> exact outcome_of_exec (fun _ => false) (inTurn 0 1 [0, 0, 1, 1]) (by decide)
    · rcases h2 with rfl | rfl
      · cases mode <;> exact outcome_of_exec (fun _ => false) (inTurn 0 1 [1, 1, 0, 0]) (by decide)
      · cases mode <;> exact outcome_of_exec (fun _ => false) (inTurn 0 1 [0, 1, 0, 1]) (by decide)

/-! ## The loop over the iterations -/

/-- `seen` holds what the iterations gave, each pair once. -/
structure Observed (outcome : Nat → Int32 × Int32) (t : Test) : Prop where
  nodup : t.seen.Nodup
  mem : ∀ p, p ∈ t.seen ↔ ∃ i < t.iters, outcome i = p

variable {outcome : Nat → Int32 × Int32} {t : Test}

theorem Observed.next (h : Observed outcome t) :
    Observed outcome
      { seen := if outcome t.iters ∈ t.seen then t.seen else t.seen ++ [outcome t.iters]
        iters := t.iters + 1 } := by
  have hmem : ∀ p, (∃ i < t.iters + 1, outcome i = p) ↔ p ∈ t.seen ∨ outcome t.iters = p := by
    intro p
    rw [h.mem]
    constructor
    · intro hsome
      obtain ⟨i, hi, rfl⟩ := hsome
      rcases Nat.lt_succ_iff_lt_or_eq.mp hi with hlt | rfl
      · exact .inl ⟨i, hlt, rfl⟩
      · exact .inr rfl
    · intro hsome
      rcases hsome with ⟨i, hi, rfl⟩ | rfl
      · exact ⟨i, Nat.lt_succ_of_lt hi, rfl⟩
      · exact ⟨t.iters, Nat.lt_succ_self _, rfl⟩
  by_cases hold : outcome t.iters ∈ t.seen
  · rw [if_pos hold]
    refine ⟨h.nodup, fun p => ?_⟩
    rw [hmem]
    constructor
    · exact .inl
    · intro hp
      rcases hp with hp | rfl
      · exact hp
      · exact hold
  · rw [if_neg hold]
    refine ⟨?_, fun p => ?_⟩
    · rw [List.nodup_append']
      exact ⟨h.nodup, List.nodup_singleton _, List.disjoint_singleton.mpr hold⟩
    · rw [hmem, List.mem_append, List.mem_singleton, @eq_comm _ p]

/-- The loop is left before its end only when all four pairs have come up. -/
theorem runTest_observed (h : Observed outcome t) (n : Nat) :
    Observed outcome (runTest outcome n t) ∧
      ((runTest outcome n t).seen.length = 4 ∨ (runTest outcome n t).iters = t.iters + n) := by
  induction n generalizing t with
  | zero => exact ⟨h, .inr rfl⟩
  | succ n ih =>
    have hnext := h.next
    simp only [runTest]
    generalize (if outcome t.iters ∈ t.seen then t.seen else t.seen ++ [outcome t.iters]) = seen
      at hnext ⊢
    by_cases hfour : seen.length = 4
    · rw [if_pos hfour]
      exact ⟨hnext, .inl hfour⟩
    · rw [if_neg hfour]
      obtain ⟨hobserved, hend⟩ := ih hnext
      refine ⟨hobserved, hend.imp_right ?_⟩
      intro hiters
      rw [hiters]
      simp only
      omega

theorem observed_start : Observed outcome {} where
  nodup := List.nodup_nil
  mem p := by simp

/-- Three pairs are left. -/
theorem length_le_three {seen : List (Int32 × Int32)} (hnodup : seen.Nodup)
    (h : ∀ p ∈ seen, Outcome .seqCst p) : seen.length ≤ 3 := by
  have hsub : seen ⊆ [(0, 1), (1, 0), (1, 1)] := by
    intro p hp
    obtain ⟨⟨h1, h2⟩, hzero⟩ := outcome_iff.mp (h p hp)
    obtain ⟨a, b⟩ := p
    rcases h1 with rfl | rfl
    · rcases h2 with rfl | rfl
      · exact absurd rfl (hzero rfl)
      · simp
    · rcases h2 with rfl | rfl
      · simp
      · simp
  exact (List.subperm_of_subset hnodup hsub).length_le

/-- An iteration ends in every order of its steps. The pairs it may give are all four, but with
`seq_cst` not the two zeros. The test lists the pairs that came up, each once, and stops early only
when there are four, so with `seq_cst` it makes all iterations and lists three at most. -/
theorem store_load_outcomes :
    (∀ mode stale actions t trace,
      (threads mode stale).machine.Run (start {}) actions t trace → actions.length ≤ 8 ∧
        ∃ more u later, (threads mode stale).machine.Run t more u later ∧ u.joined = 2) ∧
    (∀ mode p, Outcome mode p ↔ (Bit p.1 ∧ Bit p.2) ∧ (mode = .seqCst → p ≠ (0, 0))) ∧
    ∀ mode outcome n, (∀ i, Outcome mode (outcome i)) →
      (runTest outcome n {}).seen.Nodup ∧
      (∀ p, p ∈ (runTest outcome n {}).seen ↔ ∃ i < (runTest outcome n {}).iters, outcome i = p) ∧
      ((runTest outcome n {}).seen.length = 4 ∨ (runTest outcome n {}).iters = n) ∧
      (mode = .seqCst → (runTest outcome n {}).iters = n ∧ (runTest outcome n {}).seen.length ≤ 3) := by
  refine ⟨fun _ _ _ _ _ run => iteration_ends run, fun _ _ => outcome_iff, ?_⟩
  intro mode outcome n houtcome
  obtain ⟨hobserved, hend⟩ := runTest_observed (@observed_start outcome) n
  rw [show (({} : Test).iters + n) = n from Nat.zero_add n] at hend
  refine ⟨hobserved.nodup, hobserved.mem, hend, fun hmode => ?_⟩
  subst hmode
  have hthree : (runTest outcome n {}).seen.length ≤ 3 := by
    apply length_le_three hobserved.nodup
    intro p hp
    obtain ⟨i, -, rfl⟩ := (hobserved.mem p).mp hp
    exact houtcome i
  refine ⟨?_, hthree⟩
  rcases hend with hfour | hiters
  · omega
  · exact hiters

end CppCodes.Guarantees.StoreLoad
