import CppCodes.Source.FrameWork.SpscQueue

/-!
# `size` while the ring is in use

Source: hft_test/include/spsc_ring.h:40-45 and frame_work/src/spsc_queue.h:34-38. A call
loads `head_` and then `tail_`; between the two the threads that are not in the call go
on. No thread makes a call while it is inside another one.
-/

set_option autoImplicit false

namespace CppCodes.Source.HftTest.SPSCRing

open CppCodes.Library

variable {T A : Type} {k : Nat}

/-- What `size` makes of the indices it has loaded. -/
def count (head tail : Fin (2 ^ k)) : Nat :=
  if head.val ≥ tail.val then head.val - tail.val else capacity k - (tail.val - head.val)

theorem size_eq_count (r : SPSCRing T k) : r.size = count r.head r.tail := rfl

inductive Caller where
  | producer
  | consumer
  | monitor
  deriving DecidableEq

/-- Where the call of `size` stands. -/
inductive SizePc (k : Nat) where
  | idle
  | called (caller : Caller)
  | loadedHead (caller : Caller) (head : Fin (2 ^ k))

structure Observed (T A : Type) (k : Nat) where
  queue : State T A k
  call : SizePc k := .idle

inductive ObservedAction (T A : Type) where
  | queue (a : Action T A)
  | sizeCall (caller : Caller)
  | sizeLoadHead
  | sizeLoadTail
  deriving DecidableEq

inductive ObservedEvent (T A : Type) where
  | queue (e : Event T A)
  | sizeCalled (caller : Caller)
  | sizeReturned (caller : Caller) (elements : Nat)
  deriving DecidableEq

def SizePc.caller : SizePc k → Option Caller
  | .idle => none
  | .called caller => some caller
  | .loadedHead caller _ => some caller

/-- The thread whose step it is. -/
def Action.thread : Action T A → Caller
  | .pushLoadHead _ | .pushLoadTail | .pushWrite | .pushStoreHead => .producer
  | .popLoadTail _ | .popLoadHead | .popRead | .popStoreTail => .consumer

/-- The thread is inside a call of `push` or `pop`. -/
def State.busy (s : State T A k) : Caller → Bool
  | .producer => match s.producer with
    | .idle => false
    | _ => true
  | .consumer => match s.consumer with
    | .idle => false
    | _ => true
  | .monitor => false

/-- The ring with one call of `size` at a time, which returns `formula` of its loads. -/
def observed (T A : Type) (k : Nat) (formula : Fin (2 ^ k) → Fin (2 ^ k) → Nat) :
    Machine (Observed T A k) (ObservedAction T A) (ObservedEvent T A) where
  step s
    | .queue a =>
        if s.call.caller = some a.thread then none
        else
          match (machine T A k).step s.queue a with
          | none => none
          | some (queue, seen) => some ({ s with queue }, seen.map .queue)
    | .sizeCall caller =>
        match s.call with
        | .idle =>
            if s.queue.busy caller then none
            else some ({ s with call := .called caller }, [.sizeCalled caller])
        | _ => none
    | .sizeLoadHead =>
        match s.call with
        | .called caller => some ({ s with call := .loadedHead caller s.queue.ring.head }, [])
        | _ => none
    | .sizeLoadTail =>
        match s.call with
        | .loadedHead caller head =>
            some ({ s with call := .idle }, [.sizeReturned caller (formula head s.queue.ring.tail)])
        | _ => none

end CppCodes.Source.HftTest.SPSCRing

namespace CppCodes.Source.FrameWork.SpscQueue

open CppCodes.Source.HftTest

variable {T : Type} {k : Nat}

/-- What `size` makes of the indices it has loaded. -/
def count (head tail : Fin (2 ^ k)) : Nat :=
  (head.val + SPSCRing.capacity k - tail.val) &&& SPSCRing.mask k

theorem size_eq_count (q : SpscQueue T k) : size q = count q.head q.tail := rfl

/-- The two formulas agree on all indices. -/
theorem count_eq (head tail : Fin (2 ^ k)) : count head tail = SPSCRing.count head tail :=
  size_eq (⟨head, tail, fun _ => ()⟩ : SpscQueue Unit k)

end CppCodes.Source.FrameWork.SpscQueue
