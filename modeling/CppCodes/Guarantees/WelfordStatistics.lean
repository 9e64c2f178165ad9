import CppCodes.Library.Moments
import CppCodes.Source.HftTest.Strategy
import Mathlib.Data.List.Induction

/-!
# The rolling statistics of the strategy

Read as exact rationals, the incremental mean and sum of squares are those of all
samples so far. The counter is a `uint64_t`, so this holds up to `2 ^ 64 - 1` samples.
-/

set_option autoImplicit false

namespace CppCodes.Guarantees.WelfordStatistics

open CppCodes.Library CppCodes.Source.HftTest

/-- The statistics after a sequence of samples. -/
def collect (xs : List ℚ) : RollingStats ℚ := xs.foldl RollingStats.add RollingStats.empty

theorem collect_concat (xs : List ℚ) (x : ℚ) : collect (xs ++ [x]) = (collect xs).add x := by
  rw [collect, List.foldl_append]
  rfl

/-- What a sequence of samples should give. -/
def twoPass (xs : List ℚ) : RollingStats ℚ := ⟨xs.length, Sample.mean xs, Sample.deviations xs⟩

theorem twoPass_perm {xs ys : List ℚ} (h : xs.Perm ys) : twoPass xs = twoPass ys := by
  rw [twoPass, twoPass, h.length_eq, Sample.mean_perm h, Sample.deviations_perm h]

/-- One more sample, as long as the counter does not wrap. -/
theorem twoPass_add {xs : List ℚ} {x : ℚ} (h : xs.length + 1 < 2 ^ 64) :
    (twoPass xs).add x = twoPass (xs ++ [x]) := by
  have hcount : (xs.length + 1) % 2 ^ 64 = xs.length + 1 := Nat.mod_eq_of_lt h
  have hmean : Sample.mean xs + (x - Sample.mean xs) / ((xs.length + 1 : Nat) : Int) =
      Sample.mean (xs ++ [x]) := by
    rw [Sample.mean_concat]
    push_cast
    rfl
  unfold RollingStats.add twoPass
  dsimp only [Double.ofInt]
  rw [hcount, hmean, Sample.deviations_concat, List.length_append, List.length_singleton]

theorem collect_eq {xs : List ℚ} (h : xs.length < 2 ^ 64) : collect xs = twoPass xs := by
  induction xs using List.reverseRecOn with
  | nil => simp [collect, twoPass, RollingStats.empty, zero, Double.ofInt, Sample.mean, Sample.deviations]
  | append_singleton xs x ih =>
    rw [List.length_append, List.length_singleton] at h
    rw [collect_concat, ih (by omega), twoPass_add h]

/-- What `stddev` takes the root of, if it does. -/
def radicand (r : RollingStats ℚ) : Option ℚ :=
  if r.n < 2 then none else some (r.m2 / ((r.n - 1 : Nat) : Int))

theorem stddev_eq (r : RollingStats ℚ) : r.stddev = (radicand r).elim 0 Rat.sqrt := by
  unfold RollingStats.stddev radicand
  split
  · rfl
  · rfl

theorem radicand_nonneg {r : RollingStats ℚ} (h : 0 ≤ r.m2) {v : ℚ} (hv : radicand r = some v) :
    0 ≤ v := by
  unfold radicand at hv
  split at hv
  · cases hv
  · cases hv
    exact div_nonneg h (Int.cast_nonneg (Int.natCast_nonneg _))

/-- For fewer than `2 ^ 64` samples the statistics are those of the two-pass definition,
`stddev` never takes the root of a negative number, and the order of the samples does not
matter. -/
theorem welford_exact {xs : List ℚ} (h : xs.length < 2 ^ 64) :
    (collect xs).n = xs.length ∧ (collect xs).mean = xs.sum / xs.length ∧
      (collect xs).m2 = (xs.map fun x => (x - xs.sum / xs.length) ^ 2).sum ∧
      0 ≤ (collect xs).m2 ∧
      (collect xs).stddev = (radicand (collect xs)).elim 0 Rat.sqrt ∧
      (∀ v, radicand (collect xs) = some v → 0 ≤ v) ∧
      ∀ ys, ys.Perm xs → collect ys = collect xs ∧ (collect ys).stddev = (collect xs).stddev := by
  have heq := collect_eq h
  have hm2 : 0 ≤ (collect xs).m2 := by
    rw [heq]
    exact Sample.deviations_nonneg xs
  have horder : ∀ ys, ys.Perm xs → collect ys = collect xs := by
    intro ys hperm
    have hlen : ys.length < 2 ^ 64 := hperm.length_eq ▸ h
    rw [collect_eq hlen, heq, twoPass_perm hperm]
  refine ⟨?_, ?_, ?_, hm2, stddev_eq _, fun v hv => radicand_nonneg hm2 hv, ?_⟩
  · rw [heq]
    rfl
  · rw [heq]
    rfl
  · rw [heq]
    rfl
  · intro ys hperm
    rw [horder ys hperm]
    exact ⟨rfl, rfl⟩

theorem welford_exact_three :
    collect [4, 1, 2] = collect [1, 2, 4] ∧ (collect [1, 2, 4]).mean = 7 / 3 ∧
      (collect [1, 2, 4]).m2 = 14 / 3 := by
  have hlen : ([1, 2, 4] : List ℚ).length < 2 ^ 64 := by decide
  obtain ⟨-, hmean, hm2, -, -, -, horder⟩ := welford_exact hlen
  refine ⟨(horder [4, 1, 2] (by decide)).1, ?_, ?_⟩
  · rw [hmean]
    norm_num
  · rw [hm2]
    norm_num

theorem n_collect (xs : List ℚ) : (collect xs).n = xs.length % 2 ^ 64 := by
  induction xs using List.reverseRecOn with
  | nil => rfl
  | append_singleton xs x ih =>
    rw [collect_concat, List.length_append, List.length_singleton, ← Nat.mod_add_mod, ← ih]
    rfl

/-- After `2 ^ 64` samples the counter stands at zero. -/
theorem counter_wraps : ¬ ∀ xs : List ℚ, (collect xs).n = xs.length := by
  intro h
  have hcount := h (List.replicate (2 ^ 64) 0)
  rw [n_collect, List.length_replicate, Nat.mod_self] at hcount
  exact absurd hcount (by decide)

end CppCodes.Guarantees.WelfordStatistics
