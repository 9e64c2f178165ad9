import Mathlib.Algebra.BigOperators.Fin
import Mathlib.Algebra.Order.Chebyshev
import Mathlib.Tactic.FieldSimp

/-!
# Mean and squared deviations of a sample

The sum of the squares bounds the square of the sum, and the squared deviations from
the mean follow a sample that grows by one value at a time.
-/

set_option autoImplicit false

namespace CppCodes.Library.Sample

def sumSq {R : Type*} [Semiring R] (xs : List R) : R := (xs.map fun x => x ^ 2).sum

@[simp] theorem sumSq_nil {R : Type*} [Semiring R] : sumSq ([] : List R) = 0 := rfl

@[simp] theorem sumSq_cons {R : Type*} [Semiring R] (x : R) (xs : List R) :
    sumSq (x :: xs) = x ^ 2 + sumSq xs := List.sum_cons

section Order

variable {R : Type*} [CommSemiring R] [LinearOrder R] [IsStrictOrderedRing R] [ExistsAddOfLE R]

/-- The Cauchy-Schwarz inequality for a list. -/
theorem sq_sum_le_length_mul_sumSq (xs : List R) : xs.sum ^ 2 ≤ xs.length * sumSq xs := by
  have hsum : ∑ i : Fin xs.length, xs[i] = xs.sum := by
    have h := Fin.sum_univ_fun_getElem xs fun x => x
    rwa [List.map_id'] at h
  have hsquares : ∑ i : Fin xs.length, xs[i] ^ 2 = sumSq xs :=
    Fin.sum_univ_fun_getElem xs fun x => x ^ 2
  have h := sq_sum_le_card_mul_sum_sq (s := Finset.univ) (f := fun i : Fin xs.length => xs[i])
  rwa [hsum, hsquares, Finset.card_univ, Fintype.card_fin] at h

end Order

theorem sumSq_perm {R : Type*} [Semiring R] {xs ys : List R} (h : xs.Perm ys) :
    sumSq xs = sumSq ys :=
  (h.map _).sum_eq

section Field

variable {K : Type*} [Field K]

def mean (xs : List K) : K := xs.sum / xs.length

/-- The sum of the squared deviations from the mean. -/
def deviations (xs : List K) : K := (xs.map fun x => (x - mean xs) ^ 2).sum

theorem mean_perm {xs ys : List K} (h : xs.Perm ys) : mean xs = mean ys := by
  rw [mean, mean, h.sum_eq, h.length_eq]

theorem deviations_perm {xs ys : List K} (h : xs.Perm ys) : deviations xs = deviations ys := by
  unfold deviations
  rw [mean_perm h]
  exact (h.map _).sum_eq

theorem deviations_nonneg [LinearOrder K] [IsStrictOrderedRing K] (xs : List K) :
    0 ≤ deviations xs := by
  apply List.sum_nonneg
  intro y hy
  obtain ⟨x, -, rfl⟩ := List.mem_map.mp hy
  exact sq_nonneg _

/-- The squared deviations from any value. -/
theorem sum_sq_sub (xs : List K) (c : K) :
    (xs.map fun x => (x - c) ^ 2).sum = sumSq xs - 2 * c * xs.sum + xs.length * c ^ 2 := by
  induction xs with
  | nil => simp
  | cons x xs ih =>
    rw [List.map_cons, List.sum_cons, ih, sumSq_cons, List.sum_cons, List.length_cons,
      Nat.cast_add_one]
    ring

variable [CharZero K]

/-- Also for the empty sample, whose mean reads as zero. -/
theorem length_mul_mean (xs : List K) : xs.length * mean xs = xs.sum := by
  unfold mean
  by_cases h : xs = []
  · rw [h]
    simp
  · have hlen : (xs.length : K) ≠ 0 := Nat.cast_ne_zero.mpr fun hzero => h (List.length_eq_zero_iff.mp hzero)
    rw [mul_div_cancel₀ _ hlen]

theorem deviations_eq (xs : List K) : deviations xs = sumSq xs - xs.length * mean xs ^ 2 := by
  rw [deviations, sum_sq_sub, ← length_mul_mean xs]
  ring

/-- The mean moves by its share of the new value's deviation. -/
theorem mean_concat (xs : List K) (x : K) :
    mean (xs ++ [x]) = mean xs + (x - mean xs) / (xs.length + 1) := by
  have hlen : (xs.length : K) + 1 ≠ 0 := Nat.cast_add_one_ne_zero xs.length
  have hsum : mean (xs ++ [x]) = (xs.length * mean xs + x) / (xs.length + 1) := by
    rw [mean, List.sum_append, List.sum_singleton, List.length_append, List.length_singleton,
      Nat.cast_add_one, length_mul_mean]
  rw [hsum]
  field_simp
  ring

/-- The new value's deviations from the old and from the new mean make up for what the
move of the mean does to all earlier deviations. -/
theorem deviations_concat (xs : List K) (x : K) :
    deviations (xs ++ [x]) = deviations xs + (x - mean xs) * (x - mean (xs ++ [x])) := by
  have hlen : (xs.length : K) + 1 ≠ 0 := Nat.cast_add_one_ne_zero xs.length
  have hsquares : sumSq (xs ++ [x]) = sumSq xs + x ^ 2 := by
    simp [sumSq]
  rw [deviations_eq, deviations_eq, hsquares, mean_concat, List.length_append,
    List.length_singleton, Nat.cast_add_one]
  field_simp
  ring

end Field

end CppCodes.Library.Sample
