import CppCodes.Source.Rdtsc.VarCalc

/-!
# The variance and its overflow checks

Wrapped sums and squares do no harm by themselves: the last subtraction is exact modulo
`2 ^ 64`, so the result is right as long as the difference `size * sum(x^2) - (sum x)^2`
fits. The checks look at partial sums only and miss differences that do not fit.
-/

set_option autoImplicit false

namespace CppCodes.Guarantees.SampleVariance

open CppCodes.Library
open CppCodes.Source.Rdtsc

/-- `floor((size * sum(x^2) - (sum x)^2) / size^2)` -/
def exactVariance (xs : List UInt64) : Int :=
  (xs.length * Sample.sumSq (values xs) - (values xs).sum ^ 2 : Int) / (xs.length : Int) ^ 2

/-- The difference in the numerator is below `2 ^ 64`. -/
def Fits (xs : List UInt64) : Prop :=
  xs.length * Sample.sumSq (values xs) < (values xs).sum ^ 2 + 2 ^ 64

/-- One of the four comparisons sees a sum that has wrapped: all but the last entry, or
their squares (each modulo `2 ^ 64`), add up to `2 ^ 64` or more, or the wrapped square of
the sum, or the wrapped multiple of the sum of the squares, is below that sum. -/
def Noticed (xs : List UInt64) : Prop :=
  2 ^ 64 ≤ (values xs.dropLast).sum ∨
    (values xs).sum ^ 2 % 2 ^ 64 < (values xs.dropLast).sum ∨
    2 ^ 64 ≤ total (fun x => x * x) xs.dropLast ∨
    xs.length * Sample.sumSq (values xs) % 2 ^ 64 < total (fun x => x * x) xs.dropLast

instance (xs : List UInt64) : Decidable (Noticed xs) :=
  inferInstanceAs (Decidable (_ ∨ _ ∨ _ ∨ _))

instance (xs : List UInt64) : Decidable (Fits xs) := Nat.decLt _ _

section Operands

variable {xs : List UInt64} {size : UInt64}

theorem sum_sq_le (xs : List UInt64) :
    (values xs).sum ^ 2 ≤ xs.length * Sample.sumSq (values xs) := by
  have h := Sample.sq_sum_le_length_mul_sumSq (values xs)
  rwa [values, List.length_map] at h

theorem lt_ofNat_iff {a b : Nat} (hb : b < 2 ^ 64) :
    UInt64.ofNat a < UInt64.ofNat b ↔ a % 2 ^ 64 < b := by
  rw [UInt64.lt_iff_toNat_lt, UInt64.toNat_ofNat', UInt64.toNat_ofNat', Nat.mod_eq_of_lt hb]

/-- The squares and their sum may have wrapped before the multiplication. -/
theorem ofNat_total_squares_mul (hsize : size.toNat = xs.length) :
    UInt64.ofNat (total (fun x => x * x) xs) * size =
      .ofNat (xs.length * Sample.sumSq (values xs)) := by
  apply UInt64.toNat_inj.mp
  rw [UInt64.toNat_mul, UInt64.toNat_ofNat', UInt64.toNat_ofNat', hsize, total_squares_mod,
    Nat.mod_mul_mod, Nat.mul_comm]

/-- The checks come down to `Noticed`, and the operands are right modulo `2 ^ 64`. -/
theorem operands_eq (hxs : xs ≠ []) (hsize : size.toNat = xs.length) :
    operands xs size =
      if Noticed xs then none
      else some (.ofNat (xs.length * Sample.sumSq (values xs)), .ofNat ((values xs).sum ^ 2)) := by
  have hsquare : UInt64.ofNat (values xs).sum * UInt64.ofNat (values xs).sum =
      .ofNat ((values xs).sum ^ 2) := by
    rw [← UInt64.ofNat_mul, Nat.pow_two]
  unfold operands
  rw [sumLoop_eq (fun x => x) hxs, sumLoop_eq (fun x => x * x) hxs, total_id, total_id]
  by_cases hsum : (values xs.dropLast).sum < 2 ^ 64
  · rw [if_pos hsum]
    simp only [Option.bind_eq_bind, Option.bind_some, hsquare, lt_ofNat_iff hsum]
    by_cases hcut : (values xs).sum ^ 2 % 2 ^ 64 < (values xs.dropLast).sum
    · have hnoticed : Noticed xs := Or.inr (Or.inl hcut)
      rw [if_pos hcut, if_pos hnoticed]
    · rw [if_neg hcut]
      by_cases hsquares : total (fun x => x * x) xs.dropLast < 2 ^ 64
      · rw [if_pos hsquares]
        simp only [Option.bind_some, ofNat_total_squares_mul hsize, lt_ofNat_iff hsquares]
        have hnoticed : Noticed xs ↔ xs.length * Sample.sumSq (values xs) % 2 ^ 64 <
            total (fun x => x * x) xs.dropLast := by
          unfold Noticed
          omega
        simp only [hnoticed]
      · have hnoticed : Noticed xs := Or.inr (Or.inr (Or.inl (Nat.not_lt.mp hsquares)))
        rw [if_neg hsquares, if_pos hnoticed]
        rfl
  · have hnoticed : Noticed xs := Or.inl (Nat.not_lt.mp hsum)
    rw [if_neg hsum, if_pos hnoticed]
    rfl

end Operands

/-! ## The result -/

section Result

variable {inputs : List UInt64} {size : Int32}

/-- What the caller passes: at least one entry, and an array that has as many. -/
structure Passed (inputs : List UInt64) (size : Int32) : Prop where
  pos : 0 < size
  le_length : size.toNatClampNeg ≤ inputs.length

theorem Passed.length_entries (h : Passed inputs size) :
    (entries inputs size).length = size.toNatClampNeg := by
  rw [entries, List.length_take, Nat.min_eq_left h.le_length]

theorem Passed.length_pos (h : Passed inputs size) : 0 < (entries inputs size).length := by
  have hpos : (0 : Int) < size.toInt := Int32.lt_iff_toInt_lt.mp h.pos
  have hcast := Int32.cast_toNatClampNeg size (Int32.le_of_lt h.pos)
  rw [h.length_entries]
  omega

theorem Passed.length_lt (h : Passed inputs size) : (entries inputs size).length < 2 ^ 31 := by
  rw [h.length_entries]
  exact size.toNatClampNeg_lt

theorem Passed.toNat_sizeU64 (h : Passed inputs size) :
    (sizeU64 size).toNat = (entries inputs size).length := by
  have hnonneg : 0 ≤ size.toInt64 := by
    rw [Int64.le_iff_toInt_le, Int32.toInt_toInt64]
    exact Int32.le_iff_toInt_le.mp (Int32.le_of_lt h.pos)
  rw [sizeU64, Int64.toNat_toUInt64_of_le hnonneg, Int32.toNatClampNeg_toInt64, h.length_entries]

theorem Passed.sq_lt (h : Passed inputs size) : (entries inputs size).length ^ 2 < 2 ^ 64 :=
  calc (entries inputs size).length ^ 2 < (2 ^ 31) ^ 2 := Nat.pow_lt_pow_left h.length_lt (by decide)
    _ < 2 ^ 64 := by decide

theorem Passed.toNat_divisor (h : Passed inputs size) :
    (sizeU64 size * sizeU64 size).toNat = (entries inputs size).length ^ 2 := by
  rw [UInt64.toNat_mul, h.toNat_sizeU64, ← Nat.pow_two, Nat.mod_eq_of_lt h.sq_lt]

theorem Passed.divisor_ne_zero (h : Passed inputs size) : sizeU64 size * sizeU64 size ≠ 0 := by
  intro hzero
  have hvalue := h.toNat_divisor
  have hpos := Nat.pow_pos (n := 2) h.length_pos
  rw [hzero, UInt64.toNat_zero] at hvalue
  omega

/-- What is returned where no check strikes. -/
def quotient (xs : List UInt64) (size : Int32) : UInt64 :=
  (.ofNat (xs.length * Sample.sumSq (values xs)) - .ofNat ((values xs).sum ^ 2)) /
    (sizeU64 size * sizeU64 size)

theorem varCalc_eq (h : Passed inputs size) :
    Rdtscp.varCalc inputs size =
        (if Noticed (entries inputs size) then .overflow 0
          else .returned (quotient (entries inputs size) size)) ∧
      Work.varCalc inputs size =
        (if Noticed (entries inputs size) then .overflow Work.einval
          else .returned (quotient (entries inputs size) size)) := by
  have hpos : ¬ size ≤ 0 := Int32.not_le.mpr h.pos
  unfold Rdtscp.varCalc Work.varCalc
  rw [if_neg hpos, operands_eq (List.length_pos_iff.mp h.length_pos) h.toNat_sizeU64]
  by_cases hnoticed : Noticed (entries inputs size)
  · simp [hnoticed]
  · simp [hnoticed, h.divisor_ne_zero, quotient]

theorem toNat_quotient (h : Passed inputs size) :
    (quotient (entries inputs size) size).toNat =
      ((entries inputs size).length * Sample.sumSq (values (entries inputs size)) -
        (values (entries inputs size)).sum ^ 2) % 2 ^ 64 / (entries inputs size).length ^ 2 := by
  rw [quotient, UInt64.toNat_div, h.toNat_divisor, ← UInt64.ofNat_sub (sum_sq_le _),
    UInt64.toNat_ofNat']

theorem exactVariance_eq (xs : List UInt64) :
    exactVariance xs =
      ((xs.length * Sample.sumSq (values xs) - (values xs).sum ^ 2) / xs.length ^ 2 : Nat) := by
  rw [exactVariance, Int.natCast_ediv, Nat.cast_sub (sum_sq_le xs)]
  push_cast
  rfl

/-- Cutting a numerator changes the quotient, unless the divisor is larger than the cut. -/
theorem mod_div_eq_iff {a d : Nat} (hpos : 0 < d) (hle : d ≤ 2 ^ 64) :
    a % 2 ^ 64 / d = a / d ↔ a < 2 ^ 64 := by
  constructor
  · intro heq
    by_contra hlarge
    have hcut : a % 2 ^ 64 + d ≤ a := by omega
    have hstep : a % 2 ^ 64 / d + 1 ≤ a / d := by
      rw [← Nat.add_div_right _ hpos]
      exact Nat.div_le_div_right hcut
    omega
  · intro hlt
    rw [Nat.mod_eq_of_lt hlt]

theorem quotient_exact_iff (h : Passed inputs size) :
    ((quotient (entries inputs size) size).toNat : Int) = exactVariance (entries inputs size) ↔
      Fits (entries inputs size) := by
  have hle := sum_sq_le (entries inputs size)
  rw [toNat_quotient h, exactVariance_eq, Nat.cast_inj,
    mod_div_eq_iff (Nat.pow_pos h.length_pos) (Nat.le_of_lt h.sq_lt)]
  unfold Fits
  omega

end Result

/-- The call took the overflow exit or returned the exact value. -/
def Sound (e : Exit) (exact : Int) : Prop :=
  (∃ value, e = .overflow value) ∨ ∃ value, e = .returned value ∧ (value.toNat : Int) = exact

theorem sound_iff {xs : List UInt64} {e : Exit} {ret v : UInt64}
    (he : e = if Noticed xs then .overflow ret else .returned v)
    (hv : (v.toNat : Int) = exactVariance xs ↔ Fits xs) :
    Sound e (exactVariance xs) ↔ Fits xs ∨ Noticed xs := by
  by_cases hnoticed : Noticed xs
  · rw [if_pos hnoticed] at he
    exact iff_of_true (Or.inl ⟨ret, he⟩) (Or.inr hnoticed)
  · rw [if_neg hnoticed] at he
    subst he
    constructor
    · intro hsound
      rcases hsound with ⟨ret, hret⟩ | ⟨w, hw, hexact⟩
      · cases hret
      · cases hw
        exact Or.inl (hv.mp hexact)
    · intro hcond
      exact Or.inr ⟨v, rfl, hv.mpr (hcond.resolve_right hnoticed)⟩

/-- A call that does not take the overflow exit is right exactly if the difference fits. -/
theorem overflow_checks_sound_iff {inputs : List UInt64} {size : Int32} (h : Passed inputs size) :
    (Sound (Rdtscp.varCalc inputs size) (exactVariance (entries inputs size)) ↔
        Fits (entries inputs size) ∨ Noticed (entries inputs size)) ∧
      (Sound (Work.varCalc inputs size) (exactVariance (entries inputs size)) ↔
        Fits (entries inputs size) ∨ Noticed (entries inputs size)) :=
  ⟨sound_iff (varCalc_eq h).1 (quotient_exact_iff h), sound_iff (varCalc_eq h).2 (quotient_exact_iff h)⟩

/-- The sum of the squares wraps, but the difference fits. -/
theorem overflow_checks_sound_iff_wrapped :
    Sound (Rdtscp.varCalc [4294967297, 4294967297] 2)
      (exactVariance [4294967297, 4294967297]) := by
  have hpassed : Passed [4294967297, 4294967297] 2 := ⟨by decide, by decide⟩
  exact (overflow_checks_sound_iff hpassed).1.mpr (by decide +kernel)

/-- Only the last addition is large, and no check looks at it: 0 instead of `2 ^ 62`. -/
theorem last_addition_unchecked :
    Passed [0, 4294967296] 2 ∧
      ¬ Sound (Rdtscp.varCalc [0, 4294967296] 2) (exactVariance [0, 4294967296]) ∧
      ¬ Sound (Work.varCalc [0, 4294967296] 2) (exactVariance [0, 4294967296]) := by
  have hrdtscp : Rdtscp.varCalc [0, 4294967296] 2 = .returned 0 := by decide +kernel
  have hwork : Work.varCalc [0, 4294967296] 2 = .returned 0 := by decide +kernel
  have hexact : exactVariance [0, 4294967296] = 2 ^ 62 := by decide +kernel
  have hwrong : ¬ Sound (.returned 0) (2 ^ 62) := by
    intro hsound
    rcases hsound with ⟨ret, hret⟩ | ⟨v, hv, hvalue⟩
    · cases hret
    · cases hv
      exact absurd hvalue (by decide)
  rw [hrdtscp, hwork, hexact]
  exact ⟨⟨by decide, by decide⟩, hwrong, hwrong⟩

/-! ## Where nothing overflows -/

section Exact

variable {xs : List UInt64}

theorem sum_le_sumSq (xs : List Nat) : xs.sum ≤ Sample.sumSq xs := by
  induction xs with
  | nil => simp
  | cons x xs ih =>
    have hx : x ≤ x ^ 2 := Nat.le_self_pow (by decide) x
    rw [List.sum_cons, Sample.sumSq_cons]
    omega

theorem sumSq_le_length_mul (xs : List Nat) : Sample.sumSq xs ≤ xs.length * Sample.sumSq xs := by
  cases xs with
  | nil => simp
  | cons x xs => exact Nat.le_mul_of_pos_left _ (Nat.zero_lt_succ _)

theorem total_squares_le (xs : List UInt64) :
    total (fun x => x * x) xs ≤ Sample.sumSq (values xs) := by
  induction xs with
  | nil => simp [values]
  | cons x xs ih =>
    have hx : (x * x).toNat ≤ x.toNat ^ 2 := by
      rw [UInt64.toNat_mul, ← Nat.pow_two]
      exact Nat.mod_le _ _
    rw [total_cons, values, List.map_cons, Sample.sumSq_cons]
    exact Nat.add_le_add hx ih

/-- No partial sum and no product wraps, so no comparison gives a false alarm. -/
theorem not_noticed (hfit : xs.length * Sample.sumSq (values xs) < 2 ^ 64) : ¬ Noticed xs := by
  have hsquares : Sample.sumSq (values xs) ≤ xs.length * Sample.sumSq (values xs) := by
    have h := sumSq_le_length_mul (values xs)
    rwa [values, List.length_map] at h
  have hsum := sum_le_sumSq (values xs)
  have hinit : (values xs.dropLast).sum ≤ (values xs).sum := total_dropLast_le (fun x => x) xs
  have hinitSquares := total_dropLast_le (fun x => x * x) xs
  have hcut := total_squares_le xs
  have hsq := sum_sq_le xs
  have hself : (values xs).sum ≤ (values xs).sum ^ 2 := Nat.le_self_pow (by decide) _
  unfold Noticed
  rw [Nat.mod_eq_of_lt (by omega : (values xs).sum ^ 2 < 2 ^ 64), Nat.mod_eq_of_lt hfit]
  omega

theorem exactVariance_equal (hequal : ∀ x ∈ xs, ∀ y ∈ xs, x = y) : exactVariance xs = 0 := by
  cases xs with
  | nil => rfl
  | cons x rest =>
    have hrest : x :: rest = List.replicate (rest.length + 1) x :=
      List.eq_replicate_iff.mpr ⟨rfl, fun y hy => hequal y hy x List.mem_cons_self⟩
    have hvalues : values (x :: rest) = List.replicate (rest.length + 1) x.toNat := by
      rw [hrest, values, List.map_replicate]
    have hzero : (x :: rest).length * Sample.sumSq (values (x :: rest)) =
        (values (x :: rest)).sum ^ 2 := by
      rw [hvalues, Sample.sumSq, List.map_replicate, List.sum_replicate, List.sum_replicate,
        List.length_cons, smul_eq_mul, smul_eq_mul]
      ring
    rw [exactVariance_eq, hzero, Nat.sub_self, Nat.zero_div, Nat.cast_zero]

theorem quotient_perm {ys : List UInt64} (h : ys.Perm xs) (size : Int32) :
    quotient ys size = quotient xs size := by
  have hvalues : (values ys).Perm (values xs) := h.map _
  rw [quotient, quotient, Sample.sumSq_perm hvalues, hvalues.sum_eq, h.length_eq]

theorem varCalc_of_fit {inputs : List UInt64} {size : Int32} (h : Passed inputs size)
    (hfit : (entries inputs size).length * Sample.sumSq (values (entries inputs size)) < 2 ^ 64) :
    Rdtscp.varCalc inputs size = .returned (quotient (entries inputs size) size) ∧
      Work.varCalc inputs size = .returned (quotient (entries inputs size) size) := by
  have hvar := varCalc_eq h
  rwa [if_neg (not_noticed hfit), if_neg (not_noticed hfit)] at hvar

end Exact

/-- Where `size` times the sum of the squares is below `2 ^ 64`, the call returns the exact
value, with no underflow and no division by zero; 0 for equal entries, and the same for
the entries in another order. -/
theorem variance_exact {inputs : List UInt64} {size : Int32} (h : Passed inputs size)
    (hfit : (entries inputs size).length * Sample.sumSq (values (entries inputs size)) < 2 ^ 64) :
    ∃ v tempVar accSquared,
      Rdtscp.varCalc inputs size = .returned v ∧ Work.varCalc inputs size = .returned v ∧
      (v.toNat : Int) = exactVariance (entries inputs size) ∧
      operands (entries inputs size) (sizeU64 size) = some (tempVar, accSquared) ∧
      accSquared ≤ tempVar ∧ sizeU64 size * sizeU64 size ≠ 0 ∧
      ((∀ x ∈ entries inputs size, ∀ y ∈ entries inputs size, x = y) → v = 0) ∧
      ∀ others, Passed others size → (entries others size).Perm (entries inputs size) →
        Rdtscp.varCalc others size = .returned v ∧ Work.varCalc others size = .returned v := by
  obtain ⟨hrdtscp, hwork⟩ := varCalc_of_fit h hfit
  have hsq := sum_sq_le (entries inputs size)
  have hexact : ((quotient (entries inputs size) size).toNat : Int) =
      exactVariance (entries inputs size) := by
    rw [quotient_exact_iff h]
    unfold Fits
    omega
  have hoperands := operands_eq (List.length_pos_iff.mp h.length_pos) h.toNat_sizeU64
  rw [if_neg (not_noticed hfit)] at hoperands
  refine ⟨_, _, _, hrdtscp, hwork, hexact, hoperands, ?_, h.divisor_ne_zero, ?_, ?_⟩
  · rw [UInt64.le_iff_toNat_le, UInt64.toNat_ofNat', UInt64.toNat_ofNat', Nat.mod_eq_of_lt hfit]
    exact (Nat.mod_le _ _).trans hsq
  · intro hequal
    rw [exactVariance_equal hequal] at hexact
    exact UInt64.toNat_inj.mp (Nat.cast_eq_zero.mp hexact)
  · intro others hothers hperm
    have hvalues : (values (entries others size)).Perm (values (entries inputs size)) := hperm.map _
    have hfit' := hfit
    rw [← Sample.sumSq_perm hvalues, ← hperm.length_eq] at hfit'
    rw [← quotient_perm hperm]
    exact varCalc_of_fit hothers hfit'

/-- The floor of 96 / 9, and in another order. -/
theorem variance_exact_three :
    ∃ v, Rdtscp.varCalc [1, 5, 9, 900] 3 = .returned v ∧
      Work.varCalc [9, 1, 5] 3 = .returned v ∧ (v.toNat : Int) = exactVariance [1, 5, 9] := by
  have hpassed : Passed [1, 5, 9, 900] 3 := ⟨by decide, by decide⟩
  obtain ⟨v, -, -, hrdtscp, -, hexact, -, -, -, -, horder⟩ :=
    variance_exact hpassed (by decide +kernel)
  have hperm : (entries [9, 1, 5] 3).Perm (entries [1, 5, 9, 900] 3) := by decide
  exact ⟨v, hrdtscp, (horder [9, 1, 5] ⟨by decide, by decide⟩ hperm).2, hexact⟩

end CppCodes.Guarantees.SampleVariance
