import CppCodes.Library.Rounding

/-!
# The latency telemetry

Source: hft_test/include/hft_common.h:111-151 (`Telemetry`). A `double` is a rational number
here and `toDouble` the rounding that follows an operation; the values stay far inside the
exponents of a double. `none` is a reading outside of the samples.
-/

set_option autoImplicit false

namespace CppCodes.Source.HftTest

open CppCodes.Library.Rounding

def toDouble (x : ℚ) : ℚ := nearest 53 x

/-- The last `width` decimal digits. -/
def fixedDigits : Nat → Nat → List Char
  | 0, _ => []
  | width + 1, n => fixedDigits width (n / 10) ++ [Nat.digitChar (n % 10)]

def pick (v : List Int) (frac : ℚ) : Option ℚ :=
  let idx := ⌊toDouble (frac * toDouble (v.length - 1 : ℕ))⌋.toNat
  v[idx]?.map fun (ns : Int) => toDouble (toDouble ns / 1000)

/-- A bucket is a name with its samples. -/
structure Telemetry where
  buckets : List (String × List Int) := []

def record (t : Telemetry) (name : String) (ns : Int) : Telemetry :=
  if name ∈ t.buckets.map Prod.fst then
    { buckets := t.buckets.map fun b => if b.1 = name then (b.1, b.2 ++ [ns]) else b }
  else { buckets := t.buckets ++ [(name, [ns])] }

/-- Nanoseconds as microseconds. -/
def micros (ns : Int) : String :=
  (if ns < 0 then "-" else "") ++ toString (ns.natAbs / 1000) ++ "." ++
    String.ofList (fixedDigits 3 ns.natAbs ++ ['0', '0', '0'])

end CppCodes.Source.HftTest
