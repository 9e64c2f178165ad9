import CppCodes.Source.PerfLab.Counting
import Mathlib.Data.UInt
import Mathlib.Tactic.FinCases

/-!
# The threads count exactly

However the threads take turns, the two variants of a mode return the same number: no
increment of the shared counter is lost, since between its load and its store no other
thread touches it. No order of the steps gets stuck, and none goes on for ever.
-/

set_option autoImplicit false

namespace CppCodes.Guarantees.ThreadCounts

open Library Library.Workers
open Source.PerfLab.Counting

/-- An index below the bound can be increased. -/
theorem toNat_succ {i iters : UInt64} (h : i < iters) : (i + 1).toNat = i.toNat + 1 := by
  have hlt : i.toNat < iters.toNat := UInt64.lt_iff_toNat_lt.mp h
  have hbound := iters.toNat_lt
  rw [UInt64.toNat_add, UInt64.toNat_one, Nat.mod_eq_of_lt (by omega)]

theorem le_of_toNat_succ {i iters : UInt64} (h : i < iters) : i + 1 ≤ iters := by
  rw [UInt64.le_iff_toNat_le, toNat_succ h]
  exact UInt64.lt_iff_toNat_lt.mp h

theorem eq_of_not_lt {i iters : UInt64} (hle : i ≤ iters) (h : ¬ i < iters) : i = iters := by
  rw [UInt64.le_iff_toNat_le] at hle
  rw [UInt64.lt_iff_toNat_lt] at h
  exact UInt64.toNat.inj (by omega)

/-! ## One mutex -/

section Mutex

variable {T : Nat} {iters : UInt64}

/-- The lock is held. -/
def inSection : LockPc → Bool
  | .load _ | .store .. | .unlock _ => true
  | _ => false

/-- The increments that the thread has stored. -/
def stored (iters : UInt64) : LockPc → Nat
  | .test i | .lock i | .load i | .store i _ => i.toNat
  | .unlock i => i.toNat + 1
  | .returned => iters.toNat

/-- The index is one of the loop's. -/
def inLoop (iters : UInt64) : LockPc → Prop
  | .test i => i ≤ iters
  | .lock i | .load i | .store i _ | .unlock i => i < iters
  | .returned => True

def total (iters : UInt64) (pcs : Fin T → Option LockPc) : Nat :=
  ∑ k, (pcs k).elim 0 (stored iters)

structure Inv (iters : UInt64) (s : Locked T) (pcs : Fin T → Option LockPc) : Prop where
  holder : ∀ k pc, pcs k = some pc → (inSection pc = true ↔ s.m = some k)
  held : ∀ k, s.m = some k → ∃ pc, pcs k = some pc
  read : ∀ k i x, pcs k = some (.store i x) → x = s.shared
  loops : ∀ k pc, pcs k = some pc → inLoop iters pc
  counted : s.shared = UInt64.ofNat (total iters pcs)

theorem total_update (iters : UInt64) (pcs : Fin T → Option LockPc) (k : Fin T) (pc : LockPc) :
    total iters (Function.update pcs k (some pc)) + (pcs k).elim 0 (stored iters) =
      total iters pcs + stored iters pc :=
  sum_update (fun _ (o : Option LockPc) => o.elim 0 (stored iters)) pcs k (some pc)

/-- A thread moves on outside of the section. -/
theorem Inv.move {s : Locked T} {pcs : Fin T → Option LockPc} (inv : Inv iters s pcs) {k : Fin T}
    {pc : LockPc} (hm : s.m ≠ some k) (hout : inSection pc = false) (hloop : inLoop iters pc)
    (hstored : stored iters pc = (pcs k).elim 0 (stored iters)) :
    Inv iters s (Function.update pcs k (some pc)) := by
  constructor
  · intro j pc' hj
    rcases update_eq_some_iff.mp hj with ⟨rfl, rfl⟩ | ⟨-, hother⟩
    · simp [hout, hm]
    · exact inv.holder j pc' hother
  · intro j hj
    have hne : j ≠ k := by
      rintro rfl
      exact hm hj
    rw [Function.update_of_ne hne]
    exact inv.held j hj
  · intro j i x hj
    rcases update_eq_some_iff.mp hj with ⟨rfl, rfl⟩ | ⟨-, hother⟩
    · cases hout
    · exact inv.read j i x hother
  · intro j pc' hj
    rcases update_eq_some_iff.mp hj with ⟨rfl, rfl⟩ | ⟨-, hother⟩
    · exact hloop
    · exact inv.loops j pc' hother
  · have hsum := total_update iters pcs k pc
    rw [inv.counted]
    congr 1
    omega

/-- The thread in the section moves on in it. -/
theorem Inv.inside {s s' : Locked T} {pcs : Fin T → Option LockPc} (inv : Inv iters s pcs)
    {k : Fin T} {pc : LockPc} (halone : ∀ j, s.m = some j → j = k) (hm : s'.m = some k)
    (hin : inSection pc = true) (hread : ∀ i x, pc = .store i x → x = s'.shared)
    (hloop : inLoop iters pc)
    (hcounted : s'.shared = UInt64.ofNat (total iters (Function.update pcs k (some pc)))) :
    Inv iters s' (Function.update pcs k (some pc)) := by
  -- no other thread is in the section
  have hothers : ∀ j pc', j ≠ k → pcs j = some pc' → inSection pc' = false := by
    intro j pc' hne hj
    cases hsection : inSection pc' with
    | false => rfl
    | true => exact absurd (halone j ((inv.holder j pc' hj).mp hsection)) hne
  constructor
  · intro j pc' hj
    rcases update_eq_some_iff.mp hj with ⟨rfl, rfl⟩ | ⟨hne, hother⟩
    · simp [hin, hm]
    · simp [hothers j pc' hne hother, hm, Ne.symm hne]
  · intro j hj
    rw [hm] at hj
    cases hj
    exact ⟨pc, Function.update_self ..⟩
  · intro j i x hj
    rcases update_eq_some_iff.mp hj with ⟨rfl, hpc⟩ | ⟨hne, hother⟩
    · exact hread i x hpc.symm
    · cases hothers j _ hne hother
  · intro j pc' hj
    rcases update_eq_some_iff.mp hj with ⟨rfl, rfl⟩ | ⟨-, hother⟩
    · exact hloop
    · exact inv.loops j pc' hother
  · exact hcounted

/-- Leaving the section. -/
theorem Inv.unlock {s : Locked T} {pcs : Fin T → Option LockPc} (inv : Inv iters s pcs) {k : Fin T}
    {i : UInt64} (hk : pcs k = some (.unlock i)) :
    Inv iters { s with m := none } (Function.update pcs k (some (.test (i + 1)))) := by
  have hm : s.m = some k := (inv.holder k _ hk).mp rfl
  have hlt : i < iters := inv.loops k _ hk
  constructor
  · intro j pc' hj
    rcases update_eq_some_iff.mp hj with ⟨rfl, rfl⟩ | ⟨hne, hother⟩
    · simp [inSection]
    · have hiff := inv.holder j pc' hother
      rw [hm, Option.some.injEq] at hiff
      simpa [Ne.symm hne] using hiff
  · intro j hj
    cases hj
  · intro j i' x hj
    rcases update_eq_some_iff.mp hj with ⟨-, hpc⟩ | ⟨-, hother⟩
    · cases hpc
    · exact inv.read j i' x hother
  · intro j pc' hj
    rcases update_eq_some_iff.mp hj with ⟨rfl, rfl⟩ | ⟨-, hother⟩
    · exact le_of_toNat_succ hlt
    · exact inv.loops j pc' hother
  · have hsum := total_update iters pcs k (.test (i + 1))
    simp only [hk, Option.elim, stored, toNat_succ hlt] at hsum
    rw [inv.counted]
    congr 1
    omega

theorem bad_keeps : Keeps (bad T iters) (Inv iters) := by
  constructor
  · intro s pcs k inv hk
    refine inv.move ?_ rfl ?_ (by simp [bad, stored, hk])
    · intro hm
      obtain ⟨pc, hpc⟩ := inv.held k hm
      rw [hk] at hpc
      cases hpc
    · simp [bad, inLoop, UInt64.le_iff_toNat_le]
  · intro s pcs k pc next inv hk hstep
    have hsum := total_update iters pcs k
    have hloop := inv.loops k pc hk
    have hiff := inv.holder k pc hk
    cases pc with
    | test i =>
      cases hstep
      have hm : s.m ≠ some k := by simpa [inSection] using hiff
      by_cases hlt : i < iters
      · rw [if_pos hlt]
        exact inv.move hm rfl hlt (by simp [hk, stored])
      · rw [if_neg hlt]
        have hi : i = iters := eq_of_not_lt hloop hlt
        exact inv.move hm rfl trivial (by simp [hk, stored, hi])
    | lock i =>
      simp only [bad] at hstep
      split at hstep
      · rename_i hfree
        cases hstep
        have hcount := hsum (.load i)
        simp only [hk, Option.elim, stored] at hcount
        refine inv.inside (fun j hj => ?_) rfl rfl (by simp) hloop ?_
        · rw [hfree] at hj
          cases hj
        · dsimp only
          rw [show total iters _ = total iters pcs by omega]
          exact inv.counted
      · cases hstep
    | load i =>
      cases hstep
      have hm : s.m = some k := hiff.mp rfl
      have hcount := hsum (.store i s.shared)
      simp only [hk, Option.elim, stored] at hcount
      refine inv.inside (fun j hj => ?_) hm rfl (by simp) hloop ?_
      · rw [hm] at hj
        cases hj
        rfl
      · dsimp only
        rw [show total iters _ = total iters pcs by omega]
        exact inv.counted
    | store i x =>
      cases hstep
      have hm : s.m = some k := hiff.mp rfl
      have hread : x = s.shared := inv.read k i x hk
      have hcount := hsum (.unlock i)
      simp only [hk, Option.elim, stored] at hcount
      refine inv.inside (fun j hj => ?_) hm rfl (by simp) hloop ?_
      · rw [hm] at hj
        cases hj
        rfl
      · dsimp only
        rw [show total iters _ = total iters pcs + 1 by omega, UInt64.ofNat_add, ← inv.counted, hread]
        rfl
    | unlock i =>
      cases hstep
      exact inv.unlock hk
    | returned => cases hstep

theorem inv_start : Inv iters ({} : Locked T) fun _ => none := by
  constructor <;> simp [total]

theorem bad_stops : Stops (bad T iters) := by
  intro k pc s hfinished
  cases pc with
  | returned => rfl
  | _ => cases hfinished

/-- The steps that are left of a worker of `bad`. -/
def lockRank (iters : UInt64) : LockPc → Nat
  | .test i => 5 * (iters.toNat - i.toNat) + 1
  | .lock i => 5 * (iters.toNat - i.toNat)
  | .load i => 5 * (iters.toNat - i.toNat) - 1
  | .store i _ => 5 * (iters.toNat - i.toNat) - 2
  | .unlock i => 5 * (iters.toNat - i.toNat) - 3
  | .returned => 0

theorem bad_descends : Descends (bad T iters) (Inv iters) (lockRank iters) := by
  intro s pcs k pc next inv hk hstep
  have hloop := inv.loops k pc hk
  have hlt : ∀ {i : UInt64}, i < iters → i.toNat < iters.toNat := UInt64.lt_iff_toNat_lt.mp
  cases pc with
  | test i =>
    cases hstep
    by_cases hi : i < iters
    · simp [lockRank, hi]
    · simp [lockRank, hi]
  | lock i =>
    simp only [bad] at hstep
    split at hstep
    · cases hstep
      have hless := hlt hloop
      simp only [lockRank]
      omega
    · cases hstep
  | load i =>
    cases hstep
    have hless := hlt hloop
    simp only [lockRank]
    omega
  | store i x =>
    cases hstep
    have hless := hlt hloop
    simp only [lockRank]
    omega
  | unlock i =>
    cases hstep
    have hless := hlt hloop
    simp only [lockRank, toNat_succ hloop]
    omega
  | returned => cases hstep

/-- Whoever holds the mutex can step, and when nobody does anyone can. -/
theorem bad_goes {s : Locked T} {pcs : Fin T → Option LockPc} (inv : Inv iters s pcs) :
    Goes (bad T iters) s pcs := by
  rintro ⟨k, pc, hk, hfinished⟩
  cases hm : s.m with
  | none =>
    refine ⟨k, pc, ?_⟩
    cases pc with
    | returned => cases hfinished
    | lock i => exact ⟨_, hk, by simp only [bad, hm]; rfl⟩
    | _ => exact ⟨_, hk, rfl⟩
  | some j =>
    obtain ⟨pc', hj⟩ := inv.held j hm
    have hin : inSection pc' = true := (inv.holder j pc' hj).mpr hm
    refine ⟨j, pc', ?_⟩
    cases pc' with
    | load | store | unlock => exact ⟨_, hj, rfl⟩
    | _ => cases hin

theorem total_finished {pcs : Fin T → Option LockPc} (h : ∀ k, pcs k = some .returned) :
    total iters pcs = T * iters.toNat := by
  simp [total, h, stored]

end Mutex

/-! ## A counter for each thread -/

section Locals

variable {T : Nat} {iters : UInt64}

/-- What the thread has in `x`, or has left in its place of `locals`. -/
def Counted (iters place : UInt64) : LocalPc → Prop
  | .test i x => i ≤ iters ∧ x = i
  | .assign x => x = iters
  | .returned => place = iters

def LocalInv (iters : UInt64) (locals : Fin T → UInt64) (pcs : Fin T → Option LocalPc) : Prop :=
  ∀ k pc, pcs k = some pc → Counted iters (locals k) pc

theorem good_keeps : Keeps (good T iters) (LocalInv iters) := by
  constructor
  · intro locals pcs k inv hk j pc hj
    rcases update_eq_some_iff.mp hj with ⟨rfl, rfl⟩ | ⟨-, hother⟩
    · simp [good, Counted, UInt64.le_iff_toNat_le]
    · exact inv j pc hother
  · intro locals pcs k pc next inv hk hstep j pc' hj
    have hcounted := inv k pc hk
    cases pc with
    | test i x =>
      obtain ⟨hle, rfl⟩ := hcounted
      cases hstep
      rcases update_eq_some_iff.mp hj with ⟨rfl, rfl⟩ | ⟨-, hother⟩
      · by_cases hlt : x < iters
        · simp only [if_pos hlt]
          exact ⟨le_of_toNat_succ hlt, rfl⟩
        · simp only [if_neg hlt]
          exact eq_of_not_lt hle hlt
      · exact inv j pc' hother
    | assign x =>
      cases hstep
      rcases update_eq_some_iff.mp hj with ⟨rfl, rfl⟩ | ⟨hne, hother⟩
      · simpa [Counted] using hcounted
      · simpa [Function.update_of_ne hne] using inv j pc' hother
    | returned => cases hstep

def localRank (iters : UInt64) : LocalPc → Nat
  | .test i _ => iters.toNat - i.toNat + 2
  | .assign _ => 1
  | .returned => 0

theorem good_descends : Descends (good T iters) (LocalInv iters) (localRank iters) := by
  intro locals pcs k pc next inv hk hstep
  cases pc with
  | test i x =>
    cases hstep
    by_cases hlt : i < iters
    · have hless := UInt64.lt_iff_toNat_lt.mp hlt
      simp only [if_pos hlt, localRank, toNat_succ hlt]
      omega
    · simp only [if_neg hlt, localRank]
      omega
  | assign x =>
    cases hstep
    exact Nat.one_pos
  | returned => cases hstep

theorem good_stops : Stops (good T iters) := by
  intro k pc s hfinished
  cases pc with
  | returned => rfl
  | _ => cases hfinished

theorem good_goes {locals : Fin T → UInt64} {pcs : Fin T → Option LocalPc} :
    Goes (good T iters) locals pcs := by
  rintro ⟨k, pc, hk, hfinished⟩
  cases pc with
  | returned => cases hfinished
  | _ => exact ⟨k, _, _, hk, rfl⟩

theorem foldl_replicate (x acc : UInt64) (count : Nat) :
    (List.replicate count x).foldl (· + ·) acc = acc + UInt64.ofNat (count * x.toNat) := by
  induction count generalizing acc with
  | zero => simp
  | succ count ih =>
    rw [List.replicate_succ, List.foldl_cons, ih, Nat.succ_mul, Nat.add_comm, UInt64.ofNat_add,
      UInt64.ofNat_toNat, UInt64.add_assoc]

theorem accumulate_const {locals : Fin T → UInt64} (h : ∀ k, locals k = iters) :
    accumulate locals = UInt64.ofNat (T * iters.toNat) := by
  rw [show locals = fun _ => iters from funext h, accumulate, List.ofFn_const, foldl_replicate,
    UInt64.zero_add]

end Locals

/-! ## Two atomic counters -/

section Atomics

variable {iters : UInt64}

/-- The counter of a thread. -/
def counterOf (c : Counters) (k : Fin 2) : UInt64 := if k.val = 0 then c.a else c.b

def Fetched (iters count : UInt64) : Option FetchPc → Prop
  | none => count = 0
  | some (.test i) => i ≤ iters ∧ count = i
  | some (.fetchAdd i) => i < iters ∧ count = i
  | some .returned => count = iters

def FetchInv (iters : UInt64) (c : Counters) (pcs : Fin 2 → Option FetchPc) : Prop :=
  ∀ k, Fetched iters (counterOf c k) (pcs k)

/-- An addition to a thread's counter leaves the other one. -/
theorem counterOf_fetchAdd (c : Counters) (k j : Fin 2) :
    counterOf (if k = 0 then { c with a := c.a + 1 } else { c with b := c.b + 1 }) j =
      if j = k then counterOf c k + 1 else counterOf c j := by
  fin_cases k <;> fin_cases j <;> simp [counterOf]

theorem falseShare_keeps : Keeps (falseShare iters) (FetchInv iters) := by
  constructor
  · intro c pcs k inv hk j
    have hbefore := inv j
    by_cases hj : j = k
    · subst hj
      rw [hk] at hbefore
      rw [Function.update_self]
      simpa [falseShare, Fetched, UInt64.le_iff_toNat_le] using hbefore
    · rw [Function.update_of_ne hj]
      exact hbefore
  · intro c pcs k pc next inv hk hstep j
    have hown := inv k
    have hother := inv j
    rw [hk] at hown
    cases pc with
    | test i =>
      obtain ⟨hle, hcount⟩ := hown
      cases hstep
      by_cases hj : j = k
      · subst hj
        rw [Function.update_self]
        by_cases hlt : i < iters
        · simp only [if_pos hlt]
          exact ⟨hlt, hcount⟩
        · simp only [if_neg hlt]
          exact hcount.trans (eq_of_not_lt hle hlt)
      · rw [Function.update_of_ne hj]
        exact hother
    | fetchAdd i =>
      obtain ⟨hlt, hcount⟩ := hown
      cases hstep
      dsimp only
      rw [counterOf_fetchAdd]
      by_cases hj : j = k
      · subst hj
        rw [Function.update_self, if_pos rfl, hcount]
        exact ⟨le_of_toNat_succ hlt, rfl⟩
      · rw [Function.update_of_ne hj, if_neg hj]
        exact hother
    | returned => cases hstep

def fetchRank (iters : UInt64) : FetchPc → Nat
  | .test i => 2 * (iters.toNat - i.toNat) + 1
  | .fetchAdd i => 2 * (iters.toNat - i.toNat)
  | .returned => 0

theorem falseShare_descends : Descends (falseShare iters) (FetchInv iters) (fetchRank iters) := by
  intro c pcs k pc next inv hk hstep
  have hown := inv k
  rw [hk] at hown
  cases pc with
  | test i =>
    cases hstep
    by_cases hlt : i < iters
    · simp [hlt, fetchRank]
    · simp [hlt, fetchRank]
  | fetchAdd i =>
    obtain ⟨hlt, -⟩ := hown
    cases hstep
    have hless := UInt64.lt_iff_toNat_lt.mp hlt
    simp only [fetchRank, toNat_succ hlt]
    omega
  | returned => cases hstep

theorem falseShare_stops : Stops (falseShare iters) := by
  intro k pc s hfinished
  cases pc with
  | returned => rfl
  | _ => cases hfinished

theorem falseShare_goes {c : Counters} {pcs : Fin 2 → Option FetchPc} :
    Goes (falseShare iters) c pcs := by
  rintro ⟨k, pc, hk, hfinished⟩
  cases pc with
  | returned => cases hfinished
  | _ => exact ⟨k, _, _, hk, rfl⟩

end Atomics

/-! ## Every order of the steps -/

/-- Every run that has joined its threads has the result, runs are bounded, and each can be
brought to that end. -/
structure Counts {σ L : Type} {n : Nat} (w : Workers σ L n) (s : σ) (value : σ → UInt64)
    (result : UInt64) : Prop where
  exact : ∀ {actions t trace}, w.machine.Run (start s) actions t trace → t.joined = n →
    value t.shared = result
  bounded : ∃ bound, ∀ {actions t trace}, w.machine.Run (start s) actions t trace →
    actions.length ≤ bound
  completes : ∀ {actions t trace}, w.machine.Run (start s) actions t trace →
    ∃ more u later, w.machine.Run t more u later ∧ u.joined = n

theorem counts_of_keeps {σ L : Type} {n : Nat} {w : Workers σ L n} {s : σ} {value : σ → UInt64}
    {result : UInt64} {I : σ → (Fin n → Option L) → Prop} {rank : L → Nat} (keeps : Keeps w I)
    (descends : Descends w I rank) (goes : ∀ {s ls}, I s ls → Goes w s ls) (stops : Stops w)
    (hstart : I s fun _ => none)
    (hresult : ∀ {s ls}, I s ls → (∀ k, ∃ l, ls k = some l ∧ w.finished l = true) →
      value s = result) : Counts w s value result := by
  constructor
  · intro actions t trace run hall
    exact hresult (run_invariant keeps hstart run) fun k => finished_of_joined stops run hall k
  · exact ⟨_, fun run => run_length_le keeps descends hstart run⟩
  · intro actions t trace run
    exact run_completes keeps descends goes stops hstart run

theorem bad_counts (T : Nat) (iters : UInt64) :
    Counts (bad T iters) {} Locked.shared (UInt64.ofNat (T * iters.toNat)) := by
  refine counts_of_keeps bad_keeps bad_descends (fun inv => bad_goes inv) bad_stops inv_start ?_
  intro s pcs inv hfinished
  rw [inv.counted, total_finished]
  intro k
  obtain ⟨pc, hk, hpc⟩ := hfinished k
  cases pc with
  | returned => exact hk
  | _ => cases hpc

theorem good_counts (T : Nat) (iters : UInt64) :
    Counts (good T iters) (fun _ => 0) accumulate (UInt64.ofNat (T * iters.toNat)) := by
  refine counts_of_keeps good_keeps good_descends (fun _ => good_goes) good_stops (by simp [LocalInv]) ?_
  intro locals pcs inv hfinished
  refine accumulate_const fun k => ?_
  obtain ⟨pc, hk, hpc⟩ := hfinished k
  cases pc with
  | returned => exact inv k _ hk
  | _ => cases hpc

theorem falseShare_counts (iters : UInt64) :
    Counts (falseShare iters) {} (fun c => c.a + c.b) (iters + iters) := by
  refine counts_of_keeps falseShare_keeps falseShare_descends (fun _ => falseShare_goes)
    falseShare_stops ?_ ?_
  · intro k
    fin_cases k <;> rfl
  · intro c pcs inv hfinished
    have hdone : ∀ k, counterOf c k = iters := by
      intro k
      have hown := inv k
      obtain ⟨pc, hk, hpc⟩ := hfinished k
      rw [hk] at hown
      cases pc with
      | returned => exact hown
      | _ => cases hpc
    have ha : c.a = iters := hdone 0
    have hb : c.b = iters := hdone 1
    rw [ha, hb]

/-- The contended and the local counters end at the same number in every order of the steps, one
increment for each thread and round; so do the atomic ones. Nothing gets stuck, and while the
shared counter is read and written no other thread is between its lock and its unlock. -/
theorem thread_counts_exact (T : Nat) (iters : UInt64) :
    Counts (bad T iters) {} Locked.shared (UInt64.ofNat (T * iters.toNat)) ∧
      Counts (good T iters) (fun _ => 0) accumulate (UInt64.ofNat (T * iters.toNat)) ∧
      Counts (falseShare iters) {} (fun c => c.a + c.b) (iters + iters) ∧
      ∀ actions t trace, (bad T iters).machine.Run (start {}) actions t trace →
        ∀ j k pc pc', t.locals j = some pc → t.locals k = some pc' → inSection pc = true →
          inSection pc' = true → j = k := by
  refine ⟨bad_counts T iters, good_counts T iters, falseShare_counts iters, ?_⟩
  intro actions t trace run j k pc pc' hj hk hin hin'
  have inv := run_invariant bad_keeps inv_start run
  have hfirst := (inv.holder j pc hj).mp hin
  have hsecond := (inv.holder k pc' hk).mp hin'
  rw [hfirst] at hsecond
  exact Option.some.inj hsecond

end CppCodes.Guarantees.ThreadCounts
