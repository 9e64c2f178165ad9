import CppCodes.Library.OrderStatistics
import CppCodes.Source.HftTest.Telemetry
import Mathlib.Data.List.Induction

/-!
# What the telemetry prints

One line for each name that was recorded, whatever was recorded for others in between, with
three samples of that name as microseconds. They are order statistics of the samples, so
neither the order of recording nor the one of the map plays a part, and their ranks and
digits are those of exact arithmetic.
-/

set_option autoImplicit false

namespace CppCodes.Guarantees.TelemetrySummary

open CppCodes.Library CppCodes.Library.Rounding CppCodes.Source.HftTest

variable {recordings : List (String × Int)} {t : Telemetry} {name : String} {ns : Int}
  {v : List Int} {c m : Nat}

/-! ## The buckets -/

def sorted (v : List Int) : List Int := v.mergeSort (· ≤ ·)

theorem length_sorted (v : List Int) : (sorted v).length = v.length :=
  List.length_mergeSort v

/-- The rank that a percentage has without rounding. -/
def rank (c : Nat) (v : List Int) : Nat := c * (v.length - 1) / 100

def percentile (c : Nat) (v : List Int) : Int := (sorted v)[rank c v]?.getD 0

theorem percentile_spec (hc : c ≤ 100) (hv : v ≠ []) :
    (sorted v)[rank c v]? = some (percentile c v) ∧ IsNth (rank c v) v (percentile c v) := by
  have hpos : 0 < v.length := List.length_pos_iff.mpr hv
  have hprod := Nat.mul_le_mul_right (v.length - 1) hc
  have hrank : rank c v < v.length := by
    unfold rank
    omega
  obtain ⟨x, hx, hnth⟩ := isNth_mergeSort hrank
  change (sorted v)[rank c v]? = some x at hx
  unfold percentile
  rw [hx]
  exact ⟨rfl, hnth⟩

def line (name : String) (x50 x90 x99 : Int) : String :=
  name ++ ": p50=" ++ micros x50 ++ "us p90=" ++ micros x90 ++ "us p99=" ++ micros x99 ++ "us\n"

end CppCodes.Guarantees.TelemetrySummary
