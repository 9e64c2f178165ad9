import Mathlib.Algebra.Ring.Nat
import Mathlib.Data.List.Perm.Basic
import Mathlib.Tactic.Common

/-!
# The calibration of the cycle counter

Source: perf_lab/rdtsc_2.cpp:65-103. `clock` are the readings of `now_ns()` and
`tsc` those of the counter that are still to come; `none` is a wait that goes on behind them.
-/

set_option autoImplicit false

namespace CppCodes.Source.PerfLab.Calibration

structure CalibRatio where
  dc : UInt64
  dtNs : UInt64
  deriving DecidableEq

/-- `__int128`, which wraps around where it overflows. -/
def int128 (x : Int) : Int := Int.bmod x (2 ^ 128)

/-- `none` is the division by zero. -/
def cyclesToNs (cycles : UInt64) (r : CalibRatio) : Option UInt64 :=
  let num := int128 (cycles.toNat * r.dtNs.toNat)
  let num := int128 (num + (r.dc / 2).toNat)   -- round-to-nearest
  if r.dc = 0 then none else some (UInt64.ofInt (num.tdiv r.dc.toNat))

/-- `while (now_ns() - t0 < duration_ns) {}` -/
def busyWait (t0 durationNs : UInt64) : List UInt64 → Option (List UInt64)
  | [] => none
  | now :: clock => if now - t0 < durationNs then busyWait t0 durationNs clock else some clock

structure Readings where
  clock : List UInt64
  tsc : List UInt64

def calibrateOnce (durationNs : UInt64) (readings : Readings) : Option (CalibRatio × Readings) := do
  let t0 ← readings.clock.head?
  let c0 ← readings.tsc.head?
  let clock ← busyWait t0 durationNs readings.clock.tail
  let c1 ← readings.tsc.tail.head?
  let t1 ← clock.head?
  return ({ dc := c1 - c0, dtNs := t1 - t0 }, { clock := clock.tail, tsc := readings.tsc.tail.tail })

/-- The loop that fills `v`. -/
def calibrateRounds (durationNs : UInt64) : Nat → Readings → Option (List CalibRatio × Readings)
  | 0, readings => some ([], readings)
  | rounds + 1, readings => do
      let (r, readings) ← calibrateOnce durationNs readings
      let (v, readings) ← calibrateRounds durationNs rounds readings
      return (r :: v, readings)

/-- Compares the frequencies without division. -/
def lessHz (a b : CalibRatio) : Bool :=
  let left := int128 (a.dc.toNat * b.dtNs.toNat)
  let right := int128 (b.dc.toNat * a.dtNs.toNat)
  decide (left < right)

/-- What `std::nth_element` promises of the range behind the call, `nth` being the element at
the index. -/
structure NthElement {α : Type} (less : α → α → Bool) (n : Nat) (v v' : List α) (nth : α) : Prop where
  perm : v'.Perm v
  at_index : v'[n]? = some nth
  before : ∀ x ∈ v'.take n, less nth x = false
  behind : ∀ x ∈ v'.drop (n + 1), less x nth = false

/-- `calibrate_median`: the ratios of the rounds, and one the function may return. -/
def CalibrateMedian (rounds : Nat) (durationNs : UInt64) (readings : Readings)
    (v : List CalibRatio) (r : CalibRatio) : Prop :=
  ∃ left v', calibrateRounds durationNs rounds readings = some (v, left) ∧
    NthElement lessHz (rounds / 2) v v' r

end CppCodes.Source.PerfLab.Calibration
