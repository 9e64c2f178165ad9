import CppCodes.Library.Rounding
import CppCodes.Source.RustCpp.Sampling

/-!
# The latency statistics and when they are printed

Source: rust_cpp/md.cpp:144-171 (`percentile_us`, `print_latency_stats`, which md2.cpp to
md5.cpp have too) and 173-280 (`main`); rust_cpp/src/main.rs:98-129 (`percentile`,
`print_latency_stats`) and 132-253 (`main`, `run_once`). Doubles are rational numbers,
rounded after each operation. `none` is a reading outside of the vector.
-/

set_option autoImplicit false

namespace CppCodes.Source.RustCpp

open CppCodes.Library.Rounding

/-- To the nearest integer, halves away from zero: `std::llround` and `f64::round`. -/
def roundAway (x : ℚ) : ℤ := if x < 0 then -⌊-x + 1 / 2⌋ else ⌊x + 1 / 2⌋

/-- `(pct / 100.0) * (sorted.size() - 1)` in doubles. -/
def position (count : Nat) (pct : ℚ) : ℚ :=
  nearest 53 (nearest 53 (pct / 100) * nearest 53 (count - 1 : ℕ))

/-- The text of the statistics. -/
def statsText (count : Nat) (min max p10 p50 p90 p99 : Int) : String :=
  "[STATS] samples=" ++ toString count ++ " min=" ++ toString min ++ "us max=" ++ toString max ++
    "us p10=" ++ toString p10 ++ "us p50=" ++ toString p50 ++ "us p90=" ++ toString p90 ++
    "us p99=" ++ toString p99 ++ "us"

namespace Md

/-- A negative result of `llround` wraps around. -/
def percentileUs (sorted : List Int) (pct : ℚ) : Option Int :=
  if sorted.isEmpty then some 0
  else
    let idx := (roundAway (position sorted.length pct) % 2 ^ 64).toNat
    sorted[min idx (sorted.length - 1)]?

def printLatencyStats (latencies : List Int) : Option String :=
  if latencies.isEmpty then some "[STATS] no samples collected"
  else do
    let v := latencies.mergeSort (· ≤ ·)
    let min ← v.head?
    let max ← v.getLast?
    let p10 ← percentileUs v 10
    let p50 ← percentileUs v 50
    let p90 ← percentileUs v 90
    let p99 ← percentileUs v 99
    return statsText v.length min max p10 p50 p90 p99

end Md

namespace MainRs

/-- `as usize` has a negative number as 0. -/
def percentile (sorted : List Int) (pct : ℚ) : Option Int :=
  if sorted.isEmpty then some 0
  else
    let pos := (roundAway (position sorted.length pct)).toNat
    sorted[min pos (sorted.length - 1)]?

def printLatencyStats (latencies : List Int) : Option String :=
  if latencies.isEmpty then some "[STATS] no samples collected"
  else do
    let v := latencies.mergeSort (· ≤ ·)
    let min := v.head?.getD 0
    let max := v.getLast?.getD 0
    let p10 ← percentile v 10
    let p50 ← percentile v 50
    let p90 ← percentile v 90
    let p99 ← percentile v 99
    return statsText v.length min max p10 p50 p90 p99

end MainRs

/-! ## The loops over connections -/

/-- How the messages of a connection come to an end. -/
inductive Ending where
  /-- the stream is over: `next()` has nothing more -/
  | finished
  /-- a read that fails, or a close frame -/
  | failed
  deriving DecidableEq

/-- One connection. There is no snapshot where connecting or the request for it fails. Each
message comes with the latency that is measured for it. -/
structure Connection (F : Type) [LinearOrder F] where
  snapshot : Option (Feed F)
  msgs : List (Message × Int)
  ending : Ending

variable {F : Type} [LinearOrder F] [Zero F]

/-- The latencies of the messages with these numbers. -/
def measured (msgs : List (Message × Int)) (samples : List Nat) : List Int :=
  samples.filterMap fun i => msgs[i]?.map Prod.snd

/-- `stopped` is the end of `main`. -/
structure Program where
  latencies : List Int := []
  stopped : Bool := false
  printed : List (Option String) := []
  deriving DecidableEq

namespace Md

/-- One round of the loop in `main`. Every end of a connection but the one for `UPDATE_LIMIT`
leads to the next round. -/
def connect (n : Numbers F) (s : Program) (c : Connection F) : Program :=
  if s.stopped then s
  else
    match c.snapshot with
    | none => s
    | some snapshot =>
        let session := Md.session n s.latencies.length snapshot (c.msgs.map Prod.fst)
        let latencies := s.latencies ++ measured c.msgs session.samples
        if latencies.length ≥ updateLimit then
          { latencies, stopped := true, printed := s.printed ++ [printLatencyStats latencies] }
        else { s with latencies }

end Md

namespace MainRs

/-- What `run_once` returns, and its latencies. -/
inductive Outcome where
  | err
  | okPrinted (latencies : List Int)
  /-- the stream ended in the steady state -/
  | okSilent (latencies : List Int)
  deriving DecidableEq

def runOnce (n : Numbers F) (c : Connection F) : Outcome :=
  match c.snapshot with
  | none => .err
  | some snapshot =>
      let session := MainRs.session n snapshot (c.msgs.map Prod.fst)
      let latencies := measured c.msgs session.samples
      if latencies.length ≥ updateLimit then .okPrinted latencies
      else
        match session.phase, c.ending with
        | .steady, .finished => .okSilent latencies
        | _, _ => .err

def connect (n : Numbers F) (s : Program) (c : Connection F) : Program :=
  if s.stopped then s
  else
    match runOnce n c with
    | .err => s
    | .okPrinted latencies =>
        { latencies, stopped := true, printed := s.printed ++ [printLatencyStats latencies] }
    | .okSilent latencies => { s with latencies, stopped := true }

end MainRs

end CppCodes.Source.RustCpp
