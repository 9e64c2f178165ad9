import CppCodes.Library.SpawnJoin
import Mathlib.Data.List.OfFn

/-!
# Counting with threads

Source: perf_lab/perf_lab.cpp:272-293 (`false_share_run`) and 317-363 (`run_lock`). Each
variant starts its threads, joins them and returns what they have counted. `shared++` is a
load and a store, `std::lock_guard` locks and unlocks, and `fetch_add` is one step. `T` is
the number of threads and `iters` the product that both variants compute from the arguments.
-/

set_option autoImplicit false

namespace CppCodes.Source.PerfLab.Counting

open Library

/-! ## One mutex -/

/-- `m`, with the thread that has locked it, and `shared`. -/
structure Locked (T : Nat) where
  m : Option (Fin T) := none
  shared : UInt64 := 0

/-- Where a worker of `bad` stands: at the test of the `for`; at the constructor of `lk`; at
the load and the store of `shared++`; at the destructor of `lk`. -/
inductive LockPc where
  | test (i : UInt64)
  | lock (i : UInt64)
  | load (i : UInt64)
  | store (i : UInt64) (x : UInt64)
  | unlock (i : UInt64)
  | returned
  deriving DecidableEq

def bad (T : Nat) (iters : UInt64) : Workers (Locked T) LockPc T where
  begun _ := .test 0
  step k pc s :=
    match pc with
    | .test i => some (if i < iters then .lock i else .returned, s)
    | .lock i =>
        match s.m with
        | none => some (.load i, { s with m := some k })
        | some _ => none
    | .load i => some (.store i s.shared, s)
    | .store i x => some (.unlock i, { s with shared := x + 1 })
    | .unlock i => some (.test (i + 1), { s with m := none })
    | .returned => none
  finished
    | .returned => true
    | _ => false

/-! ## A counter for each thread -/

/-- Where a worker of `good` stands: at the test of the `for`, with its `x`, or before
`locals[tid] = x`. -/
inductive LocalPc where
  | test (i x : UInt64)
  | assign (x : UInt64)
  | returned
  deriving DecidableEq

def good (T : Nat) (iters : UInt64) : Workers (Fin T → UInt64) LocalPc T where
  begun _ := .test 0 0
  step tid pc locals :=
    match pc with
    | .test i x => some (if i < iters then .test (i + 1) (x + 1) else .assign x, locals)
    | .assign x => some (.returned, Function.update locals tid x)
    | .returned => none
  finished
    | .returned => true
    | _ => false

/-- `std::accumulate(locals.begin(), locals.end(), (std::uint64_t)0)` -/
def accumulate {T : Nat} (locals : Fin T → UInt64) : UInt64 := (List.ofFn locals).foldl (· + ·) 0

/-! ## Two atomic counters -/

/-- `BadCounters` and `GoodCounters`, which differ in their alignment. -/
structure Counters where
  a : UInt64 := 0
  b : UInt64 := 0

inductive FetchPc where
  | test (i : UInt64)
  | fetchAdd (i : UInt64)
  | returned
  deriving DecidableEq

/-- `workerA` is the first thread and `workerB` the second. -/
def falseShare (iters : UInt64) : Workers Counters FetchPc 2 where
  begun _ := .test 0
  step k pc c :=
    match pc with
    | .test i => some (if i < iters then .fetchAdd i else .returned, c)
    | .fetchAdd i =>
        some (.test (i + 1), if k = 0 then { c with a := c.a + 1 } else { c with b := c.b + 1 })
    | .returned => none
  finished
    | .returned => true
    | _ => false

end CppCodes.Source.PerfLab.Counting
