import CppCodes.Library.SpawnJoin
import Mathlib.Algebra.Ring.Nat

/-!
# The store-load test

Source: mem_order/store_load.cpp:8-63. In an iteration each atomic is stored to twice, the zero of
`main` before the threads are started and the one of a thread. A `seq_cst` load takes the last
value stored. A load of the other modes may take the older one as well, since nothing that the
thread has seen comes after the newer: `stale k` says whether the load of the thread `k` does so.
-/

set_option autoImplicit false

namespace CppCodes.Source.MemOrder

open Library

inductive Mode where
  | relaxed
  | acqRel
  | seqCst
  deriving DecidableEq

structure Variables where
  x : Int32 := 0
  y : Int32 := 0
  r1 : Int32 := 0
  r2 : Int32 := 0
  deriving DecidableEq

/-- What a load takes of an atomic that holds `current`. -/
def load (mode : Mode) (stale : Bool) (current : Int32) : Int32 :=
  match mode with
  | .seqCst => current
  | _ => if stale then 0 else current

/-- Where a thread stands: at its store, at its load, or at its end. -/
inductive Pc where
  | store
  | load
  | returned
  deriving DecidableEq

/-- `t1` is the first thread and `t2` the second. -/
def threads (mode : Mode) (stale : Fin 2 → Bool) : Workers Variables Pc 2 where
  begun _ := .store
  step k pc s :=
    match pc with
    | .store => some (.load, if k.val = 0 then { s with x := 1 } else { s with y := 1 })
    | .load =>
        some (.returned,
          if k.val = 0 then { s with r1 := load mode (stale k) s.y }
          else { s with r2 := load mode (stale k) s.x })
    | .returned => none
  finished
    | .returned => true
    | _ => false

/-- The body of the loop down to `t2.join()` may leave `p` in `r1` and `r2`. -/
def Outcome (mode : Mode) (p : Int32 × Int32) : Prop :=
  ∃ stale actions t trace, (threads mode stale).machine.Run (Workers.start {}) actions t trace ∧
    t.joined = 2 ∧ p = (t.shared.r1, t.shared.r2)

/-- `seen`, in the order of the lines `Observed`, and the iterations that were made. -/
structure Test where
  seen : List (Int32 × Int32) := []
  iters : Nat := 0

/-- The loop: `n` iterations are left, and the next one gives `outcome iters`. -/
def runTest (outcome : Nat → Int32 × Int32) : Nat → Test → Test
  | 0, t => t
  | n + 1, t =>
      let p := outcome t.iters
      let seen := if p ∈ t.seen then t.seen else t.seen ++ [p]
      if seen.length = 4 then { seen, iters := t.iters + 1 }
      else runTest outcome n { seen, iters := t.iters + 1 }

end CppCodes.Source.MemOrder
