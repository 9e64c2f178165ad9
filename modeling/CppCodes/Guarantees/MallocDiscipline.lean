import CppCodes.Source.PerfLab.MallocCompare
import Mathlib.Algebra.Order.BigOperators.Group.List
import Mathlib.Algebra.Order.Ring.Int
import Mathlib.Algebra.Order.Ring.Nat
import Mathlib.Data.List.Perm.Basic

/-!
# The allocator benchmark frees every block once

Between its steps a thread has the entries of `live` for its blocks, in some order. A pick
takes the last entry to the place of the freed one, so it takes one entry out, and the last
loop takes out what the batches have left.
-/

set_option autoImplicit false

namespace CppCodes.Guarantees.MallocDiscipline

open CppCodes.Library CppCodes.Library.Code CppCodes.Library.AllocTrace
open CppCodes.Source.PerfLab.MallocCompare

/-! ## The options -/

section Clamp

variable {F : Type} [LT F] [DecidableLT F] [Zero F] [One F]

/-- Both divisors that come from the options are positive. -/
theorem clamp_positive {raw opt : Options F} (h : clamp raw = some opt) :
    0 < opt.liveSlots ∧ 0 < opt.batch := by
  simp only [clamp] at h
  split at h
  · cases h
  · rw [Option.some.injEq] at h
    subst h
    constructor
    · dsimp only
      split <;> omega
    · dsimp only
      split <;> omega

end Clamp

/-! ## Taking an entry out -/

/-- `live[idx] = live.back(); live.pop_back()` takes out the entry at `idx`. -/
theorem perm_of_swap_remove {A : Type} {live : List A} {idx : Nat} (hidx : idx < live.length)
    {back : A} (hback : live.getLast? = some back) :
    (live[idx] :: (live.set idx back).dropLast).Perm live := by
  have hlast : (live.set idx back).getLast? = some back := by
    rw [List.getLast?_eq_getElem?, List.length_set, List.getElem?_set]
    rw [List.getLast?_eq_getElem?] at hback
    split
    · rfl
    · exact hback
  have hsplit := List.dropLast_append_getLast? back hlast
  have hmoved : (back :: (live.set idx back).dropLast).Perm (back :: live.eraseIdx idx) := by
    have hset := List.set_perm_cons_eraseIdx hidx back
    rw [← hsplit] at hset
    exact (List.perm_append_singleton back _).symm.trans hset
  have hrest := hmoved.cons_inv
  exact (hrest.cons live[idx]).trans (List.getElem_cons_eraseIdx_perm hidx)

/-! ## The steps of a thread -/

section Steps

variable {F A : Type} [DecidableEq A]

/-- What the benchmark relies on: a block, and none that the thread has. -/
def Honest (mallocFn : List (Event A) → Nat → Option A) : Prop :=
  ∀ log size, ∃ p, mallocFn log size = some p ∧ p ∉ owned log

/-- The blocks of a thread are those in `live` and the one in its hands. -/
structure Holding (opt : Options F) (hands : List A) (w : Worker A) : Prop where
  disciplined : Disciplined w.log
  held : (hands ++ w.live).Perm (owned w.log)
  slots : w.slots.length = opt.liveSlots

variable {opt : Options F} {hands : List A} {w : Worker A} {p : A} {sz fuel : Nat}
  {mallocFn : List (Event A) → Nat → Option A} {seq : ThreadSeq}

theorem Holding.start : Holding opt [] (Worker.start opt : Worker A) :=
  ⟨disciplined_nil, .nil, List.length_replicate⟩

theorem allocate_spec (honest : Honest mallocFn) (h : Holding opt [] w) :
    Ensures (allocate mallocFn sz)
      (fun p u => Holding opt [p] u ∧ (p, sz) ∈ blocks u.log) (fun _ => False) w := by
  obtain ⟨p, hanswer, hnew⟩ := honest w.log sz
  simp only [allocate, ensures_bind, ensures_read, hanswer, record, ensures_modify, ensures_pure]
  refine ⟨⟨?_, ?_, h.slots⟩, ?_⟩
  · exact disciplined_snoc_iff.mpr ⟨h.disciplined, hnew⟩
  · rw [owned_obtained]
    exact h.held.cons p
  · simp [track]

/-- A page that starts below the rounded limit starts inside the block. -/
theorem lt_of_lt_touchLimit (hsz : sz < 2 ^ 63) {k : Nat} (h : stride * k < touchLimit sz) :
    stride * k < sz := by
  unfold touchLimit stride sizeT at *
  split at h <;> omega

theorem touchLimit_lt (hsz : sz < 2 ^ 63) : touchLimit sz < sz + stride := by
  unfold touchLimit stride sizeT
  split <;> omega

theorem Holding.written (h : Holding opt [p] w) (hin : (p, sz) ∈ blocks w.log) {off len : Nat}
    (hle : off + len ≤ sz) :
    Holding opt [p] { w with log := w.log ++ [.written p off len] } := by
  refine ⟨disciplined_snoc_iff.mpr ⟨h.disciplined, sz, hin, hle⟩, ?_, h.slots⟩
  rw [owned_written]
  exact h.held

theorem touchFrom_spec (hsz : sz < 2 ^ 63) {k : Nat} (hfuel : touchLimit sz ≤ stride * (k + fuel))
    (h : Holding opt [p] w) (hin : (p, sz) ∈ blocks w.log) :
    Ensures (touchFrom p sz (touchLimit sz) (fuel + 1) (stride * k))
      (fun _ u => Holding opt [p] u) (fun _ => False) w := by
  induction fuel generalizing k w with
  | zero =>
    rw [Nat.add_zero] at hfuel
    rwa [touchFrom, if_neg (by omega), ensures_pure]
  | succ fuel ih =>
    rw [touchFrom]
    split
    · next hlt =>
      have hoff := lt_of_lt_touchLimit hsz hlt
      have hlimit := touchLimit_lt hsz
      have hnext : sizeT (stride * k + stride) = stride * (k + 1) := by
        unfold sizeT stride at *
        omega
      have hlen : stride * k + min 64 (sizeT (sz + 2 ^ 64 - stride * k)) ≤ sz := by
        unfold sizeT
        omega
      rw [ensures_bind, record, ensures_modify, hnext]
      apply ih
      · rwa [Nat.add_right_comm, Nat.add_assoc]
      · exact h.written hin hlen
      · simpa [track] using hin
    · exact h

theorem touch_spec (hsz : sz < 2 ^ 63) (hfuel : 2 ^ 52 < fuel) (h : Holding opt [p] w)
    (hin : (p, sz) ∈ blocks w.log) :
    Ensures (touch fuel (some p) sz) (fun _ u => Holding opt [p] u) (fun _ => False) w := by
  obtain ⟨fuel, rfl⟩ := Nat.exists_eq_add_of_lt hfuel
  simp only [touch]
  split
  · exact h
  · have hlimit := touchLimit_lt hsz
    have henough : touchLimit sz ≤ stride * (0 + (2 ^ 52 + fuel)) := by
      unfold stride at *
      omega
    exact touchFrom_spec hsz henough h hin

theorem pushLive_spec (h : Holding opt [p] w) :
    Ensures (pushLive p) (fun _ u => Holding opt [] u) (fun _ => False) w := by
  rw [pushLive, ensures_modify]
  exact ⟨h.disciplined, List.perm_append_singleton p w.live |>.trans h.held, h.slots⟩

theorem setSlot_spec {i : Nat} (hi : i < opt.liveSlots) (h : Holding opt hands w) :
    Ensures (setSlot i p) (fun _ u => Holding opt hands u) (fun _ => False) w := by
  rw [setSlot, ensures_bind, ensures_read, if_pos (h.slots ▸ hi), ensures_modify]
  exact ⟨h.disciplined, h.held, by rw [List.length_set, h.slots]⟩

/-- What the clamped options and the sequences of a thread are good for. -/
structure Ready (opt : Options F) (seq : ThreadSeq) : Prop where
  slots : 0 < opt.liveSlots
  batch : 0 < opt.batch
  sizes : ∀ i, i < opt.allocsPerThread → ∃ sz, seq.allocSizes[i]? = some sz ∧ sz < 2 ^ 63
  picks : 0 < seq.freePicks.length

theorem obtain_spec (ready : Ready opt seq) (honest : Honest mallocFn) (hfuel : 2 ^ 52 < fuel)
    {i : Nat} (hi : i < opt.allocsPerThread) (h : Holding opt [] w) {rest : A → Code (Worker A) Unit}
    {Q : Unit → Worker A → Prop}
    (hrest : ∀ p u, Holding opt [p] u → Ensures (rest p) Q (fun _ => False) u) :
    Ensures (do
      let sz ← require seq.allocSizes[i]?
      let p ← allocate mallocFn sz
      touch fuel (some p) sz
      rest p) Q (fun _ => False) w := by
  obtain ⟨sz, hget, hsz⟩ := ready.sizes i hi
  rw [ensures_bind, ensures_require]
  refine ⟨sz, hget, ?_⟩
  apply (allocate_spec honest h).andThen
  rintro p u ⟨hu, hin⟩
  apply (touch_spec hsz hfuel hu hin).andThen
  intro _ v hv
  exact hrest p v hv

theorem fillOne_spec (ready : Ready opt seq) (honest : Honest mallocFn) (hfuel : 2 ^ 52 < fuel)
    {i : Nat} (hi : i < opt.allocsPerThread) (h : Holding opt [] w) :
    Ensures (fillOne fuel mallocFn opt seq i) (fun _ u => Holding opt [] u) (fun _ => False) w := by
  apply obtain_spec ready honest hfuel hi h
  intro p u hu
  have hslots := ready.slots
  rw [ensures_bind, remainder, if_neg (by omega), ensures_pure]
  apply (setSlot_spec (Nat.mod_lt i hslots) hu).andThen
  intro _ v hv
  exact pushLive_spec hv

theorem batchOne_spec (ready : Ready opt seq) (honest : Honest mallocFn) (hfuel : 2 ^ 52 < fuel)
    {i : Nat} (hi : i < opt.allocsPerThread) (h : Holding opt [] w) :
    Ensures (batchOne fuel mallocFn seq i) (fun _ u => Holding opt [] u) (fun _ => False) w := by
  apply obtain_spec ready honest hfuel hi h
  intro p u hu
  exact pushLive_spec hu

theorem nextPick_spec (ready : Ready opt seq) (h : Holding opt [] w) :
    Ensures (nextPick seq) (fun _ u => Holding opt [] u ∧ u.live = w.live) (fun _ => False) w := by
  have hpicks := ready.picks
  have hplace := Nat.mod_lt w.freePickIdx hpicks
  simp only [nextPick, ensures_bind, ensures_read, ensures_modify, remainder]
  rw [if_neg (by omega), ensures_pure, ensures_require]
  exact ⟨_, List.getElem?_eq_getElem hplace, ⟨h.disciplined, h.held, h.slots⟩, rfl⟩

/-- One pick frees one block, and `live` has the others. -/
theorem freePicked_spec (ready : Ready opt seq) (hlive : w.live ≠ []) (h : Holding opt [] w) :
    Ensures (freePicked seq) (fun _ u => Holding opt [] u) (fun _ => False) w := by
  rw [freePicked]
  apply (nextPick_spec ready h).andThen
  rintro pick u ⟨hu, hsame⟩
  rw [← hsame] at hlive
  have hpos : 0 < u.live.length := List.length_pos_of_ne_nil hlive
  have hidx : pick % u.live.length < u.live.length := Nat.mod_lt pick hpos
  obtain ⟨back, hback⟩ := Option.ne_none_iff_exists'.mp (mt List.getLast?_eq_none_iff.mp hlive)
  simp only [ensures_bind, ensures_read, remainder, if_neg (Nat.ne_of_gt hpos), ensures_pure,
    ensures_require, freeFn, record, ensures_modify]
  refine ⟨_, List.getElem?_eq_getElem hidx, back, hback, ?_⟩
  have hheld := (perm_of_swap_remove hidx hback).trans hu.held
  refine ⟨disciplined_snoc_iff.mpr ⟨hu.disciplined, ?_⟩, ?_, hu.slots⟩
  · exact hheld.subset List.mem_cons_self
  · exact perm_owned_freed hu.disciplined hheld

theorem freeBatch_spec (ready : Ready opt seq) (frees : Nat) (h : Holding opt [] w) :
    Ensures (freeBatch seq frees) (fun _ u => Holding opt [] u) (fun _ => False) w := by
  induction frees generalizing w with
  | zero => exact h
  | succ frees ih =>
    rw [freeBatch, ensures_bind, ensures_read]
    split
    · exact h
    · next hlive =>
      apply (freePicked_spec ready hlive h).andThen
      intro _ u hu
      exact ih hu

theorem churn_spec (ready : Ready opt seq) (honest : Honest mallocFn) (hfuel : 2 ^ 52 < fuel)
    {more i : Nat} (hmore : opt.allocsPerThread < i + more) (hi : i ≤ opt.allocsPerThread)
    (h : Holding opt [] w) :
    Ensures (churn fuel mallocFn opt seq more i) (fun _ u => Holding opt [] u) (fun _ => False)
      w := by
  -- every round makes one allocation at least
  induction more generalizing i w with
  | zero => omega
  | succ more ih =>
    rw [churn]
    split
    · next hlt =>
      have hbatch := ready.batch
      have hround : Ensures (forRange (batchOne fuel mallocFn seq) i
          (min opt.batch (opt.allocsPerThread - i))) (fun _ u => Holding opt [] u)
          (fun _ => False) w :=
        Ensures.forRange_from (I := fun _ u => Holding opt [] u) h
          fun j u _ hj hu => batchOne_spec ready honest hfuel (by omega) hu
      apply hround.andThen
      intro _ u hu
      rw [ensures_bind, ensures_read]
      apply (freeBatch_spec ready _ hu).andThen
      intro _ v hv
      exact ih (by omega) (by omega) hv
    · exact h

theorem freeAll_spec {left : List A} (hlog : Disciplined w.log) (hheld : left.Perm (owned w.log)) :
    Ensures (freeAll left) (fun _ u => Disciplined u.log ∧ owned u.log = []) (fun _ => False) w := by
  induction left generalizing w with
  | nil => exact ⟨hlog, hheld.symm.eq_nil⟩
  | cons p rest ih =>
    rw [freeAll, ensures_bind, freeFn, record, ensures_modify]
    apply ih
    · exact disciplined_snoc_iff.mpr ⟨hlog, hheld.subset List.mem_cons_self⟩
    · exact perm_owned_freed hlog hheld

theorem worker_spec (ready : Ready opt seq) (honest : Honest mallocFn) (hfuel : 2 ^ 52 < fuel)
    (hallocs : opt.allocsPerThread < fuel) :
    Ensures (worker fuel mallocFn opt seq) (fun _ u => Disciplined u.log ∧ owned u.log = [])
      (fun _ => False) (Worker.start opt) := by
  have hfill : Ensures (forRange (fillOne fuel mallocFn opt seq) 0
      (min opt.liveSlots opt.allocsPerThread)) (fun _ u => Holding opt [] u) (fun _ => False)
      (Worker.start opt) :=
    Ensures.forRange (I := fun _ u => Holding opt [] u) Holding.start
      fun i u hi hu => fillOne_spec ready honest hfuel (by omega) hu
  apply hfill.andThen
  intro _ u hu
  apply (churn_spec ready honest hfuel (by omega) (by omega) hu).andThen
  intro _ v hv
  rw [ensures_bind, ensures_read]
  exact freeAll_spec hv.disciplined hv.held

end Steps

/-! ## Whole runs -/

section Runs

variable {F A : Type} [LT F] [DecidableLT F] [DecidableEq A]

theorem precompute_ready [Zero F] [One F] {raw opt : Options F} (hclamp : clamp raw = some opt)
    (hcount : opt.allocsPerThread + opt.liveSlots + opt.batch < 2 ^ 64) {draws : Draws F}
    (hsizes : ∀ i, i < opt.allocsPerThread → allocSize opt draws i < 2 ^ 63) :
    Ready opt (precompute opt draws) := by
  obtain ⟨hslots, hbatch⟩ := clamp_positive hclamp
  refine ⟨hslots, hbatch, ?_, ?_⟩
  · intro i hi
    exact ⟨allocSize opt draws i, by simp [precompute, hi], hsizes i hi⟩
  · simp only [precompute, sizeT, List.length_map, List.length_range]
    omega

/-- A thread ends, and has freed all that it had. -/
theorem runThread_spec {opt : Options F} {draws : Draws F} (ready : Ready opt (precompute opt draws))
    {mallocFn : List (Event A) → Nat → Option A} (honest : Honest mallocFn) {fuel : Nat}
    (hfuel : 2 ^ 52 < fuel) (hallocs : opt.allocsPerThread < fuel) :
    ∃ w, runThread fuel mallocFn opt draws = .done () w ∧ Disciplined w.log ∧ owned w.log = [] := by
  rcases (worker_spec ready honest hfuel hallocs).cases with ⟨_, w, hdone, hend⟩ | ⟨w, -, hno⟩
  · exact ⟨w, hdone, hend⟩
  · cases hno

/-- Whatever the sizes and the picks are, no thread goes wrong, each of its writes is in a
block that it has then, and every block that it obtains is freed once and left alone from
then on. The same holds of all threads together in any order of their steps, when no
answer is an address that a thread has. -/
theorem freed_once [Zero F] [One F] {raw opt : Options F} (hclamp : clamp raw = some opt)
    (hcount : opt.allocsPerThread + opt.liveSlots + opt.batch < 2 ^ 64) {draws : Nat → Draws F}
    (hsizes : ∀ t i, i < opt.allocsPerThread → allocSize opt (draws t) i < 2 ^ 63)
    {mallocFn : Nat → List (Event A) → Nat → Option A} (honest : ∀ t, Honest (mallocFn t)) :
    ∃ enough, ∀ fuel, enough ≤ fuel →
      (∀ t, ∃ w, runThread fuel (mallocFn t) opt (draws t) = .done () w ∧
        Disciplined w.log ∧ FreedOnce w.log) ∧
      ∀ run, RunOnce fuel opt mallocFn draws run → Distinct run →
        Disciplined (together run) ∧ FreedOnce (together run) := by
  refine ⟨2 ^ 52 + opt.allocsPerThread + 1, fun fuel hfuel => ?_⟩
  have hthread := fun t => runThread_spec (precompute_ready hclamp hcount (hsizes t)) (honest t)
    (by omega : 2 ^ 52 < fuel) (by omega)
  constructor
  · intro t
    obtain ⟨w, hdone, hlog, hnone⟩ := hthread t
    exact ⟨w, hdone, hlog, freedOnce_of_disciplined hlog hnone⟩
  · rintro run ⟨hthreads, hruns⟩ hdistinct
    have hown : ∀ t, Disciplined (own t run) ∧ owned (own t run) = [] := by
      intro t
      by_cases ht : t < opt.threads.toNat
      · obtain ⟨w, hdone, hlog, hnone⟩ := hthread t
        obtain ⟨w', hdone', hsame⟩ := hruns t ht
        rw [hdone] at hdone'
        cases hdone'
        rw [hsame]
        exact ⟨hlog, hnone⟩
      · have hnobody : ∀ entry ∈ run, entry.1 ≠ t := by
          rintro entry hin rfl
          exact ht (hthreads entry hin)
        rw [own_of_nobody hnobody]
        exact ⟨disciplined_nil, rfl⟩
    obtain ⟨shared, hall⟩ := shared_of_disciplined (fun t => (hown t).1) hdistinct
    exact ⟨hall, freedOnce_of_disciplined hall (shared.owned_nil fun t => (hown t).2)⟩

/-- An allocator that goes on above all blocks. -/
def upwards (log : List (Event Nat)) (_ : Nat) : Option Nat := some ((owned log).sum + 1)

theorem freed_once_upwards :
    ∃ opt : Options Int, clamp ⟨5, 2, 10, 5000, 4, 3, "glibc", 2, -1, 0, false⟩ = some opt ∧
      ∃ enough, ∀ fuel, enough ≤ fuel →
        ∃ w, runThread fuel upwards opt ⟨fun _ => 0, fun _ => 16, fun i => 7 * i⟩ = .done () w ∧
          FreedOnce w.log := by
  have hclamp : clamp (⟨5, 2, 10, 5000, 4, 3, "glibc", 2, -1, 0, false⟩ : Options Int) =
      some ⟨5, 2, 16, 5000, 1, 3, "glibc", 2, 0, 1, false⟩ := rfl
  have hsizes : ∀ t i : Nat, i < 5 →
      allocSize (⟨5, 2, 16, 5000, 1, 3, "glibc", 2, 0, 1, false⟩ : Options Int)
        ((fun _ => ⟨fun _ => 0, fun _ => 16, fun i => 7 * i⟩ : Nat → Draws Int) t) i < 2 ^ 63 := by
    simp [allocSize]
  have honest : Honest upwards := by
    intro log size
    refine ⟨(owned log).sum + 1, rfl, fun hin => ?_⟩
    have hle := List.le_sum_of_mem hin
    omega
  obtain ⟨enough, hruns⟩ := freed_once hclamp (by decide) hsizes fun _ => honest
  refine ⟨_, hclamp, enough, fun fuel hfuel => ?_⟩
  obtain ⟨w, hdone, -, hfreed⟩ := (hruns fuel hfuel).1 0
  exact ⟨w, hdone, hfreed⟩

end Runs

end CppCodes.Guarantees.MallocDiscipline
