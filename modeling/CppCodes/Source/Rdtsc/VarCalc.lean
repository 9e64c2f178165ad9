import CppCodes.Library.Moments
import Mathlib.Data.Int.Cast.Lemmas

/-!
# The variance of the cycle counts

Source: rdtsc/user_mode/2_rdtscp/rdtscp.c:82-125 and rdtsc/4_real_workload/work.c:103-133;
1_rdtsc, 2_rdtscp and 3_alt have the function of work.c. All arithmetic is that of
`uint64_t`. The array has at least `size` entries; the loops read the first `size`.
-/

set_option autoImplicit false

namespace CppCodes.Source.Rdtsc

open CppCodes.Library

/-- How a call is left: with a value, through the label `overflow`, which prints and
returns a value too, or in a division by zero. -/
inductive Exit where
  | returned (value : UInt64)
  | overflow (value : UInt64)
  | divisionByZero
  deriving DecidableEq

/-- Both loops: `previous` and the sum when the entries are used up. The sum is
compared with `previous` before each addition, so not after the last one. -/
def sumLoop (term : UInt64 → UInt64) (previous acc : UInt64) :
    List UInt64 → Option (UInt64 × UInt64)
  | [] => some (previous, acc)
  | x :: rest => if acc < previous then none else sumLoop term acc (acc + term x) rest

/-- The part both files share: the operands of the final subtraction, `none` where it
goes to `overflow`. -/
def operands (inputs : List UInt64) (sizeU64 : UInt64) : Option (UInt64 × UInt64) := do
  let (previous, acc) ← sumLoop (fun x => x) 0 0 inputs
  let accSquared := acc * acc
  if accSquared < previous then none else
    let (previous, tempVar) ← sumLoop (fun x => x * x) 0 0 inputs
    let tempVar := tempVar * sizeU64
    if tempVar < previous then none else some (tempVar, accSquared)

/-- The entries the loops read. -/
def entries (inputs : List UInt64) (size : Int32) : List UInt64 := inputs.take size.toNatClampNeg

/-- `(uint64_t)size` -/
def sizeU64 (size : Int32) : UInt64 := size.toInt64.toUInt64

namespace Rdtscp

def varCalc (inputs : List UInt64) (size : Int32) : Exit :=
  if size ≤ 0 then .returned 0 else
    match operands (entries inputs size) (sizeU64 size) with
    | none => .overflow 0
    | some (tempVar, accSquared) =>
        if sizeU64 size * sizeU64 size = 0 then .returned 0
        else .returned ((tempVar - accSquared) / (sizeU64 size * sizeU64 size))

end Rdtscp

namespace Work

/-- `-EINVAL`, returned as a `uint64_t`. -/
def einval : UInt64 := (-22 : Int64).toUInt64

def varCalc (inputs : List UInt64) (size : Int32) : Exit :=
  match operands (entries inputs size) (sizeU64 size) with
  | none => .overflow einval
  | some (tempVar, accSquared) =>
      if sizeU64 size * sizeU64 size = 0 then .divisionByZero
      else .returned ((tempVar - accSquared) / (sizeU64 size * sizeU64 size))

end Work

/-! ## The sums without a bound -/

section Sums

variable (term : UInt64 → UInt64)

def total (xs : List UInt64) : Nat := (xs.map fun x => (term x).toNat).sum

@[simp] theorem total_nil : total term [] = 0 := rfl

@[simp] theorem total_cons (x : UInt64) (xs : List UInt64) :
    total term (x :: xs) = (term x).toNat + total term xs := List.sum_cons

theorem total_dropLast_le (xs : List UInt64) : total term xs.dropLast ≤ total term xs :=
  ((List.dropLast_sublist xs).map _).sum_le_sum fun _ _ => Nat.zero_le _

/-- A loop that has added `before + last` so far, `last` at the end. -/
theorem sumLoop_from {before last : Nat} (hbefore : before < 2 ^ 64) (hlast : last < 2 ^ 64)
    {xs : List UInt64} (hxs : xs ≠ []) :
    sumLoop term (.ofNat before) (.ofNat (before + last)) xs =
      if before + last + total term xs.dropLast < 2 ^ 64 then
        some (.ofNat (before + last + total term xs.dropLast),
          .ofNat (before + last + total term xs))
      else none := by
  induction xs generalizing before last with
  | nil => exact absurd rfl hxs
  | cons x rest ih =>
    have hcheck : UInt64.ofNat (before + last) < UInt64.ofNat before ↔ 2 ^ 64 ≤ before + last := by
      rw [UInt64.lt_iff_toNat_lt, UInt64.toNat_ofNat', UInt64.toNat_ofNat',
        Nat.mod_eq_of_lt hbefore]
      omega
    have hadd : UInt64.ofNat (before + last) + term x =
        UInt64.ofNat (before + last + (term x).toNat) := by
      rw [UInt64.ofNat_add _ (term x).toNat, UInt64.ofNat_toNat]
    rw [sumLoop]
    by_cases hwrap : 2 ^ 64 ≤ before + last
    · have hmore : ¬ before + last + total term (x :: rest).dropLast < 2 ^ 64 := by omega
      rw [if_pos (hcheck.mpr hwrap), if_neg hmore]
    · rw [if_neg (mt hcheck.mp hwrap), hadd]
      cases rest with
      | nil =>
        have hfits : before + last + 0 < 2 ^ 64 := by omega
        rw [List.dropLast_singleton, total_cons, total_nil, if_pos hfits]
        rfl
      | cons y rest =>
        have hx : (term x).toNat < 2 ^ 64 := (term x).toNat_lt
        rw [ih (by omega) hx (List.cons_ne_nil y rest), List.dropLast_cons_cons,
          total_cons term x (y :: rest), total_cons term x (y :: rest).dropLast, ← Nat.add_assoc,
          ← Nat.add_assoc]

theorem sumLoop_eq {xs : List UInt64} (hxs : xs ≠ []) :
    sumLoop term 0 0 xs =
      if total term xs.dropLast < 2 ^ 64 then
        some (.ofNat (total term xs.dropLast), .ofNat (total term xs))
      else none := by
  have hzero : (0 : Nat) < 2 ^ 64 := by decide
  have h := sumLoop_from term hzero hzero hxs
  rwa [Nat.zero_add, Nat.zero_add, Nat.zero_add] at h

end Sums

/-- The entries as integers without a bound. -/
def values (xs : List UInt64) : List Nat := xs.map UInt64.toNat

theorem total_id (xs : List UInt64) : total (fun x => x) xs = (values xs).sum := rfl

/-- Modulo `2 ^ 64` it makes no difference that the squares have been cut already. -/
theorem total_squares_mod (xs : List UInt64) :
    total (fun x => x * x) xs % 2 ^ 64 = Sample.sumSq (values xs) % 2 ^ 64 := by
  induction xs with
  | nil => rfl
  | cons x xs ih =>
    rw [total_cons, values, List.map_cons, Sample.sumSq_cons, UInt64.toNat_mul, Nat.pow_two,
      Nat.mod_add_mod, Nat.add_mod, ih, ← Nat.add_mod]
    rfl

end CppCodes.Source.Rdtsc
