import CppCodes.Source.FrameWork.SpscQueue
import Mathlib.Data.List.FinRange

/-!
# The logger and its producers

Source: frame_work/src/logging.cpp:11-42, types.h:10-16, main.cpp:18-84 and the loops
of the producers (feed_handler.cpp:22-37, strategy_shard.cpp:20-34,
oms_risk.cpp:18-39, trade_io.cpp:14-22). Each source has one producer. What a producer
does in an iteration is left open but for its pushes; it tests `running` before each
iteration and is finished when the test fails. A time point is a number of
nanoseconds.
-/

set_option autoImplicit false

namespace CppCodes.Source.FrameWork

open CppCodes.Library CppCodes.Source.HftTest

structure LogEvent where
  source : String
  message : String
  ts : Int
  deriving DecidableEq

abbrev LogQueue := SpscQueue LogEvent 10

/-- `start_` and the names of `sources_`. -/
structure LogSetup where
  start : Int
  names : List String

/-- What `drain_once` prints; `duration_cast` rounds towards zero. -/
def LogSetup.line (c : LogSetup) (i : Fin c.names.length) (evt : LogEvent) : String :=
  "[" ++ c.names.get i ++ "] +" ++ toString ((evt.ts - c.start).tdiv 1000000) ++ "ms " ++ evt.message ++
    "\n"

/-- Where a producer stands: at its `while`, in an iteration, or behind its loop. -/
inductive ProducerPc where
  | test
  | body
  | finished
  deriving DecidableEq

/-- Where `Logger::run` stands; `rest` are the sources that `drain_once` has not found
empty, and `final` says that it is the call behind the loop. -/
inductive LoggerPc (n : Nat) where
  | test
  | drain (rest : List (Fin n)) (final : Bool)
  | finished
  deriving DecidableEq

structure Logging (n : Nat) where
  running : Bool
  producers : Fin n → ProducerPc
  queues : Fin n → LogQueue
  logger : LoggerPc n

/-- A producer tests `running`, pushes or ends its iteration; the logger tests, pops or
returns; `main` stores `false`. -/
inductive LogAction (n : Nat) where
  | test (i : Fin n)
  | push (i : Fin n) (evt : LogEvent)
  | endIteration (i : Fin n)
  | logger
  | stop

inductive LogAct (n : Nat) where
  | pushed (i : Fin n) (evt : LogEvent) (accepted : Bool)
  | printed (i : Fin n) (evt : LogEvent) (line : String)
  deriving DecidableEq

namespace Logging

variable (c : LogSetup) (s : Logging c.names.length)

/-- `Logger::run` with `drain_once`. -/
def loggerStep : Option (Logging c.names.length × List (LogAct c.names.length)) :=
  match s.logger with
  | .test => some ({ s with logger := .drain (List.finRange c.names.length) (!s.running) }, [])
  | .drain [] final => some ({ s with logger := if final then .finished else .test }, [])
  | .drain (i :: rest) final =>
      match SPSCRing.pop (s.queues i) with
      | (queue, none) =>
          some ({ s with
            queues := Function.update s.queues i queue
            logger := .drain rest final }, [])
      | (queue, some evt) =>
          some ({ s with queues := Function.update s.queues i queue }, [.printed i evt (c.line i evt)])
  | .finished => none

def machine : Machine (Logging c.names.length) (LogAction c.names.length) (LogAct c.names.length) where
  step s
    | .test i =>
        match s.producers i with
        | .test =>
            some ({ s with
              producers := Function.update s.producers i (if s.running then .body else .finished) }, [])
        | _ => none
    | .push i evt =>
        match s.producers i with
        | .body =>
            let (queue, accepted) := SpscQueue.push (s.queues i) evt
            some ({ s with queues := Function.update s.queues i queue }, [.pushed i evt accepted])
        | _ => none
    | .endIteration i =>
        match s.producers i with
        | .body => some ({ s with producers := Function.update s.producers i .test }, [])
        | _ => none
    | .logger => loggerStep c s
    | .stop => some ({ s with running := false }, [])

/-- The sources are registered, the threads at their first test. -/
def start : Logging c.names.length where
  running := true
  producers := fun _ => .test
  queues := fun _ => SPSCRing.empty fun _ => ⟨"", "", 0⟩
  logger := .test

/-- All threads have been joined. -/
def Joined {n : Nat} (s : Logging n) : Prop :=
  (∀ i, s.producers i = .finished) ∧ s.logger = .finished

end Logging

end CppCodes.Source.FrameWork
