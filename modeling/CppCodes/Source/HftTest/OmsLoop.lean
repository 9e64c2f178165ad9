import CppCodes.Source.HftTest.OmsEngine

/-!
# The event loop of the order management thread

Source: hft_test/src/hft_main.cpp:237-242, 269-317 and 335-352, with thread A's side
in 422-430 and 446-453. `machine` runs `OmsEngine::loop` one call at a time around the
calls of `OmsEngine.machine`, with thread A, the network and `join` in between. The
counter behind `eventfd_a_to_b` is in semaphore mode: a write adds one, a read takes one.
`epoll_wait` reports the counter while it is not zero, and the socket once for each
change of it (`EPOLLET`), with `EPOLLIN` when there is something to read.

Connecting is left out, and so are failures of the calls of epoll other than `EINTR`
and the end of `epoll_wait`. The counter behind `eventfd_b_to_a` has no reader that waits.
-/

set_option autoImplicit false

namespace CppCodes.Source.HftTest.OmsLoop

open Library

/-- An event that `epoll_wait` has returned. -/
inductive Ready where
  | bell
  | socket (readable : Bool)
  deriving DecidableEq

/-- Where `loop` stands: at `while (running_)`; in `epoll_wait`; before the next event;
in `handle_socket_read`; in `handle_ring` at `eventfd_read`, or at `inbound_.pop()`, for
one of the events or for the drain behind them; or at its end. -/
inductive Phase where
  | top
  | waiting
  | handling (events : List Ready)
  | reading (events : List Ready)
  | silencing (events : Option (List Ready))
  | popping (events : Option (List Ready))
  | stopped
  deriving DecidableEq

/-- `bell` is the counter; `announcing` says that thread A has pushed and not written it
yet; `arrived` and `hungUp` are what the socket has to be read, and `edge` says that
epoll has a change of it to report. -/
structure State where
  oms : OmsEngine.State
  inbound : SPSCRing OrderRequest kRingDepthLog
  bell : Nat := 0
  announcing : Bool := false
  arrived : Bytes := []
  hungUp : Bool := false
  edge : Bool := false
  running : Bool := true
  phase : Phase := .top

inductive Action where
  | push (req : OrderRequest)
  | announce
  | popExec
  | join
  | arrive (chunk : Bytes)
  | hangUp
  | writable
  | call (a : OmsEngine.Action)
  | again
  | epollWait (socketFirst : Bool)
  | epollInterrupted
  | epollFails
  | nextEvent
  | readBell
  | popOrder (now : Int64) (gaps : UInt32 × UInt32)
  | recv (n : Nat)
  | recvFails
  deriving DecidableEq

inductive Event where
  | pushed (req : OrderRequest)
  | refused (req : OrderRequest)
  | arrived (chunk : Bytes)
  | received (chunk : Bytes)
  | oms (e : OmsEngine.Event)
  deriving DecidableEq

/-- `uint8_t buf[2048]` -/
def recvSize : Nat := 2048

/-- The steps inside `send_all` and `parse_exec_reports`. -/
def inCall : OmsEngine.Action → Bool
  | .send _ | .parse _ => true
  | _ => false

def omsStep (s : State) (a : OmsEngine.Action) : Option (State × List Event) :=
  (OmsEngine.machine.step s.oms a).map fun (oms, seen) => ({ s with oms := oms }, seen.map .oms)

/-- The events that are ready, the level of the counter and the change of the socket. -/
def ready (s : State) (socketFirst : Bool) : List Ready :=
  let bell := if 0 < s.bell then [Ready.bell] else []
  let socket := if s.edge then [Ready.socket (s.arrived ≠ [] || s.hungUp)] else []
  if socketFirst then socket ++ bell else bell ++ socket

/-- Behind `handle_ring`: the next event, or the next turn of the loop. -/
def afterRing : Option (List Ready) → Phase
  | some events => .handling events
  | none => .top

/-- One call of `loop`, outside of `send_all` and `parse_exec_reports`. -/
def loopStep (s : State) : Action → Option (State × List Event)
  | .again =>
      match s.phase with
      | .top => some ({ s with phase := if s.running then .waiting else .stopped }, [])
      | _ => none
  | .epollWait socketFirst =>
      match s.phase with
      | .waiting =>
          some ({ s with edge := false, phase := .handling (ready s socketFirst) }, [])
      | _ => none
  | .epollInterrupted =>
      match s.phase with
      | .waiting => some ({ s with phase := .top }, [])
      | _ => none
  | .epollFails =>
      match s.phase with
      | .waiting => some ({ s with phase := .stopped }, [])
      | _ => none
  | .nextEvent =>
      match s.phase with
      | .handling [] => some ({ s with phase := .silencing none }, [])
      | .handling (.bell :: events) => some ({ s with phase := .silencing (some events) }, [])
      | .handling (.socket readable :: events) =>
          some ({ s with phase := if readable then .reading events else .handling events }, [])
      | _ => none
  | .readBell =>
      match s.phase with
      | .silencing events =>
          if 0 < s.bell then some ({ s with bell := s.bell - 1 }, [])
          else some ({ s with phase := .popping events }, [])
      | _ => none
  | .popOrder now gaps =>
      match s.phase with
      | .popping events =>
          match s.inbound.pop with
          | (inbound, some req) => omsStep { s with inbound := inbound } (.order req now gaps)
          | (inbound, none) => some ({ s with inbound := inbound, phase := afterRing events }, [])
      | _ => none
  | .recv n =>
      match s.phase with
      | .reading events =>
          if s.arrived = [] then
            some ({ s with
              running := s.running && !s.hungUp
              phase := .handling events }, [])
          else if 0 < n ∧ n ≤ recvSize then
            (omsStep { s with arrived := s.arrived.drop n } (.recv (s.arrived.take n))).map
              fun (t, seen) => (t, .received (s.arrived.take n) :: seen)
          else none
      | _ => none
  | .recvFails =>
      match s.phase with
      | .reading events => some ({ s with phase := .handling events }, [])
      | _ => none
  | _ => none

def step (s : State) : Action → Option (State × List Event)
  | .push req =>
      if s.announcing then none
      else match s.inbound.push req with
        | (inbound, true) => some ({ s with inbound := inbound, announcing := true }, [.pushed req])
        | (_, false) => some (s, [.refused req])
  | .announce =>
      if s.announcing then some ({ s with bell := s.bell + 1, announcing := false }, []) else none
  | .popExec => omsStep s .popExec
  | .join => if s.announcing then none else some ({ s with running := false }, [])
  | .arrive chunk =>
      if s.hungUp ∨ chunk = [] then none
      else some ({ s with arrived := s.arrived ++ chunk, edge := true }, [.arrived chunk])
  | .hangUp => if s.hungUp then none else some ({ s with hungUp := true, edge := true }, [])
  | .writable => some ({ s with edge := true }, [])
  | .call a => if inCall a then omsStep s a else none
  | a =>
      match s.oms.pc with
      | .idle => loopStep s a
      | _ => none

def machine : Machine State Action Event := ⟨step⟩

def start (data : Fin (2 ^ kRingDepthLog) → ExecUpdate)
    (slots : Fin (2 ^ kRingDepthLog) → OrderRequest) : State where
  oms := OmsEngine.start data
  inbound := .empty slots

/-! ## What an observer sees -/

def omsTrace (trace : List Event) : List OmsEngine.Event :=
  trace.filterMap fun
    | .oms e => some e
    | _ => none

/-- The requests thread A has pushed, oldest first. -/
def pushed (trace : List Event) : List OrderRequest :=
  trace.filterMap fun
    | .pushed req => some req
    | _ => none

/-- The requests passed to `send_new_order`, oldest first. -/
def sent (trace : List Event) : List OrderRequest :=
  (OmsEngine.ordered (omsTrace trace)).map Prod.fst

/-- The octets that have arrived at the socket. -/
def arrivals (trace : List Event) : Bytes :=
  trace.flatMap fun
    | .arrived chunk => chunk
    | _ => []

/-- The octets that `recv` has returned. -/
def received (trace : List Event) : Bytes :=
  trace.flatMap fun
    | .received chunk => chunk
    | _ => []

end CppCodes.Source.HftTest.OmsLoop
