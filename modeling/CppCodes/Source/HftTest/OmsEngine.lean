import CppCodes.Source.HftTest.Framing
import CppCodes.Source.HftTest.SpscRing
import Mathlib.Data.Finmap

/-!
# The order management thread

Source: hft_test/src/hft_main.cpp:310-393 and 407-413. `machine` runs the thread
one call of `send`, `recv` or `unpack_frame` at a time, with the pops of thread A
in between; `handleSocketRead` is one arrival without interruption. Ring calls
are atomic, which is what the ring guarantees, and a report is pushed and booked in
one step, since thread A sees only the push. An arrival may have any length; the
buffer of 2048 octets only cuts it into shorter ones. `now_ns` and the alignment gaps of
`WireNewOrder` are inputs; epoll, the event counters and the log lines carry no
data and are left out.
-/

set_option autoImplicit false

namespace CppCodes.Source.HftTest

open CppCodes.Library

/-- `kRingDepth` is 1024. -/
def kRingDepthLog : Nat := 10

/-- The members that `send_new_order` and `parse_exec_reports` work on. -/
structure OmsEngine where
  outbound : SPSCRing ExecUpdate kRingDepthLog
  nextClordid : UInt64 := 1
  orders : Finmap (fun _ : UInt64 => OrderState) := ∅

namespace OmsEngine

/-- The message that `send_new_order` fills in. -/
def newOrder (o : OmsEngine) (req : OrderRequest) (now : Int64) (gaps : UInt32 × UInt32) :
    WireNewOrder where
  padding4 := gaps.1
  clOrdId := o.nextClordid
  mdEventId := req.mdEventId
  side := req.side.toByte
  ordType := req.type.toByte
  tif := req.tif.toByte
  padding28 := gaps.2
  px := req.px
  qty := req.qty
  tOmsSendNs := now

/-- The entry that `send_new_order` writes, with the state and the quantity that
later reports give it. -/
def orderState (req : OrderRequest) (state : ExecType) (filled : Int64) : OrderState where
  mdEventId := req.mdEventId
  side := req.side
  px := req.px
  qty := req.qty
  state := state
  filled := filled

/-- `send_new_order` before its call of `send_all`. -/
def registerOrder (o : OmsEngine) (req : OrderRequest) : OmsEngine :=
  { o with
    nextClordid := o.nextClordid + 1
    orders := o.orders.insert o.nextClordid (orderState req .ack 0) }

/-- The two `continue` checks of `parse_exec_reports` and the report behind them. -/
def execUpdateOf (payload : Bytes) (now : Int64) : Option ExecUpdate :=
  if payload.length < sizeofWireExecReport then none
  else
    let w := WireExecReport.ofBytes payload
    if w.hdr.magic ≠ kProtocolMagic ∨ w.hdr.msgType ≠ kMsgExecReport then none
    else some {
      clOrdId := w.clOrdId
      mdEventId := w.mdEventId
      execType := .ofByte w.execType
      fillPx := w.fillPx
      fillQty := w.fillQty
      tsOmsRecvNs := now }

/-- The entry of `orders_` after a report. -/
def updateEntry (st : OrderState) (ex : ExecUpdate) : OrderState :=
  { st with state := ex.execType, filled := st.filled + ex.fillQty }

/-- The report is pushed, whether or not the ring takes it, and the entry found
under its id is updated. -/
def applyReport (o : OmsEngine) (ex : ExecUpdate) : OmsEngine :=
  { o with
    outbound := (o.outbound.push ex).1
    orders :=
      match o.orders.lookup ex.clOrdId with
      | none => o.orders
      | some st => o.orders.insert ex.clOrdId (updateEntry st ex) }

/-- The loop body of `parse_exec_reports`; `clock` holds the readings of `now_ns`
and the counter says how many were used. -/
def parsePayload (clock : Nat → Int64) (s : OmsEngine × Nat) (payload : Bytes) : OmsEngine × Nat :=
  match execUpdateOf payload (clock s.2) with
  | none => s
  | some ex => (s.1.applyReport ex, s.2 + 1)

/-- One `recv` of `handle_socket_read` and its `parse_exec_reports`. -/
def handleSocketRead (clock : Nat → Int64) (s : Bytes × OmsEngine × Nat) (chunk : Bytes) :
    Bytes × OmsEngine × Nat :=
  receive (parsePayload clock) s chunk

/-! ## The thread -/

/-- `send_all` calls again after `EAGAIN` only. -/
def sendAllRetries (r : SendResult) : Bool := r == .eagain

/-- Where the thread stands: between events, in `send_all`, or in the loop of
`parse_exec_reports`. -/
inductive Pc where
  | idle
  | sending (frame : Bytes) (sent : Nat)
  | parsing (offset : Nat) (payload : Bytes)

structure State where
  engine : OmsEngine
  rxBuffer : Bytes := []
  pc : Pc := .idle

inductive Action where
  | order (req : OrderRequest) (now : Int64) (gaps : UInt32 × UInt32)
  | send (result : SendResult)
  | recv (chunk : Bytes)
  | parse (now : Int64)
  | popExec
  deriving DecidableEq

inductive Event where
  | ordered (req : OrderRequest) (w : WireNewOrder)
  | accepted (bytes : Bytes)
  | parsed (ex : ExecUpdate) (entry : Option OrderState)
  | popped (ex : ExecUpdate)
  deriving DecidableEq

def machine : Machine State Action Event where
  step s
    | .order req now gaps =>
        match s.pc with
        | .idle =>
            let w := s.engine.newOrder req now gaps
            some ({ s with
              engine := s.engine.registerOrder req
              pc := .sending (packWithLength w.toBytes) 0 }, [.ordered req w])
        | _ => none
    | .send result =>
        match s.pc with
        | .sending frame sent =>
            match sendStep sendAllRetries frame sent result with
            | none => none
            | some (.again sent', taken) =>
                some ({ s with pc := .sending frame sent' }, [.accepted taken])
            | some (.done, taken) => some ({ s with pc := .idle }, [.accepted taken])
        | _ => none
    | .recv chunk =>
        match s.pc with
        | .idle => some ({ s with rxBuffer := s.rxBuffer ++ chunk, pc := .parsing 0 [] }, [])
        | _ => none
    | .parse now =>
        match s.pc with
        | .parsing offset payload =>
            match unpackFrame s.rxBuffer offset payload with
            | (false, last, _) =>
                some ({ s with rxBuffer := s.rxBuffer.drop last, pc := .idle }, [])
            | (true, next, data) =>
                match execUpdateOf data now with
                | none => some ({ s with pc := .parsing next data }, [])
                | some ex =>
                    some ({ s with engine := s.engine.applyReport ex, pc := .parsing next data },
                      [.parsed ex (s.engine.orders.lookup ex.clOrdId)])
        | _ => none
    | .popExec =>
        let (ring, found) := s.engine.outbound.pop
        some ({ s with engine := { s.engine with outbound := ring } }, (found.map .popped).toList)

/-- The thread after its constructor, with whatever the ring's slots hold. -/
def start (data : Fin (2 ^ kRingDepthLog) → ExecUpdate) : State where
  engine := { outbound := SPSCRing.empty data }

/-- The octets of the current frame that `::send` has not taken yet. -/
def unsent (s : State) : Bytes :=
  match s.pc with
  | .sending frame sent => frame.drop sent
  | _ => []

/-- The received octets that no frame has been made of yet. -/
def unread (s : State) : Bytes :=
  match s.pc with
  | .parsing offset _ => s.rxBuffer.drop offset
  | _ => s.rxBuffer

/-- The orders sent, with the message made of each, oldest first. -/
def ordered (trace : List Event) : List (OrderRequest × WireNewOrder) :=
  trace.filterMap fun
    | .ordered req w => some (req, w)
    | _ => none

/-- The octets the socket has taken. -/
def accepted (trace : List Event) : Bytes :=
  trace.flatMap fun
    | .accepted bytes => bytes
    | _ => []

/-- The valid reports parsed, oldest first. -/
def parsed (trace : List Event) : List ExecUpdate :=
  trace.filterMap fun
    | .parsed ex _ => some ex
    | _ => none

/-- The reports thread A has popped, oldest first. -/
def popped (trace : List Event) : List ExecUpdate :=
  trace.filterMap fun
    | .popped ex => some ex
    | _ => none

/-! ## What a step does -/

/-- One step, with the state seen as the engine, the octets not sent and the
octets not read. -/
inductive Effect (s u : State) : Action → List Event → Prop where
  | order (req : OrderRequest) (now : Int64) (gaps : UInt32 × UInt32)
      (engine : u.engine = s.engine.registerOrder req) (before : unsent s = [])
      (frame : unsent u = packWithLength (s.engine.newOrder req now gaps).toBytes)
      (read : unread u = unread s) :
      Effect s u (.order req now gaps) [.ordered req (s.engine.newOrder req now gaps)]
  | send (r : SendResult) (taken : Bytes) (engine : u.engine = s.engine)
      (sent : unsent s = taken ++ unsent u ∨
        (sendAllRetries r = false ∧ (∀ n, r ≠ .accepted n) ∧ taken = [] ∧ unsent u = []))
      (read : unread u = unread s) : Effect s u (.send r) [.accepted taken]
  | recv (chunk : Bytes) (engine : u.engine = s.engine) (before : unsent s = [])
      (after : unsent u = []) (read : unread u = unread s ++ chunk) : Effect s u (.recv chunk) []
  | leaveLoop (now : Int64) (noFrame : splitFrame (unread s) = none) (engine : u.engine = s.engine)
      (before : unsent s = []) (after : unsent u = []) (read : unread u = unread s) :
      Effect s u (.parse now) []
  | skip (now : Int64) (data rest : Bytes) (split : splitFrame (unread s) = some (data, rest))
      (invalid : execUpdateOf data now = none) (engine : u.engine = s.engine)
      (before : unsent s = []) (after : unsent u = []) (read : unread u = rest) :
      Effect s u (.parse now) []
  | report (now : Int64) (data rest : Bytes) (ex : ExecUpdate)
      (split : splitFrame (unread s) = some (data, rest))
      (valid : execUpdateOf data now = some ex) (engine : u.engine = s.engine.applyReport ex)
      (before : unsent s = []) (after : unsent u = []) (read : unread u = rest) :
      Effect s u (.parse now) [.parsed ex (s.engine.orders.lookup ex.clOrdId)]
  | popExec (engine : u.engine = { s.engine with outbound := (s.engine.outbound.pop).1 })
      (sent : unsent u = unsent s) (read : unread u = unread s) :
      Effect s u .popExec ((s.engine.outbound.pop).2.map .popped).toList

theorem step_effect {s u : State} {a : Action} {seen : List Event}
    (h : machine.step s a = some (u, seen)) : Effect s u a seen := by
  obtain ⟨engine, rxBuffer, pc⟩ := s
  cases a with
  | order req now gaps =>
    cases pc with
    | idle =>
      simp only [machine, Option.some.injEq, Prod.mk.injEq] at h
      obtain ⟨rfl, rfl⟩ := h
      exact .order req now gaps rfl rfl (by simp [unsent]) rfl
    | _ => cases h
  | send r =>
    cases pc with
    | sending frame sent =>
      simp only [machine] at h
      cases hr : sendStep sendAllRetries frame sent r with
      | none =>
        rw [hr] at h
        cases h
      | some result =>
        obtain ⟨next, taken⟩ := result
        rw [hr] at h
        have hleft := sendStep_left hr
        cases next with
        | again sent' =>
          cases h
          exact .send r taken rfl hleft rfl
        | done =>
          cases h
          exact .send r taken rfl hleft rfl
    | _ => cases h
  | recv chunk =>
    cases pc with
    | idle =>
      simp only [machine, Option.some.injEq, Prod.mk.injEq] at h
      obtain ⟨rfl, rfl⟩ := h
      exact .recv chunk rfl rfl rfl (by simp [unread])
    | _ => cases h
  | parse now =>
    cases pc with
    | parsing offset payload =>
      simp only [machine, unpackFrame_drop] at h
      cases hsplit : splitFrame (rxBuffer.drop offset) with
      | none =>
        simp only [hsplit, Option.some.injEq, Prod.mk.injEq] at h
        obtain ⟨rfl, rfl⟩ := h
        exact .leaveLoop now hsplit rfl rfl rfl rfl
      | some split =>
        obtain ⟨data, rest⟩ := split
        have hrest : rxBuffer.drop (offset + (4 + data.length)) = rest := by
          rw [← List.drop_drop, (splitFrame_sound hsplit).2, ← packWithLength_length,
            List.drop_left]
        simp only [hsplit] at h
        cases hex : execUpdateOf data now with
        | none =>
          simp only [hex, Option.some.injEq, Prod.mk.injEq] at h
          obtain ⟨rfl, rfl⟩ := h
          exact .skip now data rest hsplit hex rfl rfl rfl hrest
        | some ex =>
          simp only [hex, Option.some.injEq, Prod.mk.injEq] at h
          obtain ⟨rfl, rfl⟩ := h
          exact .report now data rest ex hsplit hex rfl rfl rfl hrest
    | _ => cases h
  | popExec =>
    simp only [machine, Option.some.injEq, Prod.mk.injEq] at h
    obtain ⟨rfl, rfl⟩ := h
    cases pc <;> exact .popExec rfl rfl rfl

/-- The order a step registers, and the report it lets thread A pop. -/
def orderedBy (s : State) : Action → List (OrderRequest × WireNewOrder)
  | .order req now gaps => [(req, s.engine.newOrder req now gaps)]
  | _ => []

def poppedBy (s : State) : Action → List ExecUpdate
  | .popExec => (s.engine.outbound.pop).2.toList
  | _ => []

theorem step_history {s u : State} {a : Action} {seen : List Event}
    (h : machine.step s a = some (u, seen)) :
    ordered seen = orderedBy s a ∧ popped seen = poppedBy s a := by
  cases step_effect h with
  | popExec engine sent read =>
    unfold orderedBy poppedBy
    cases (s.engine.outbound.pop).2 <;> exact ⟨rfl, rfl⟩
  | _ => exact ⟨rfl, rfl⟩

/-! ## Uninterrupted calls -/

/-- The loop of `parse_exec_reports` from where it stands. -/
theorem run_parse_loop (clock : Nat → Int64) (rxBuffer : Bytes) (offset : Nat) (payload : Bytes)
    (s : OmsEngine × Nat) :
    ∃ actions trace, machine.Run ⟨s.1, rxBuffer, .parsing offset payload⟩ actions
      ⟨(frameLoop rxBuffer (parsePayload clock) offset payload s).1.1,
        rxBuffer.drop (frameLoop rxBuffer (parsePayload clock) offset payload s).2, .idle⟩
      trace := by
  fun_induction frameLoop rxBuffer (parsePayload clock) offset payload s with
  | case1 offset payload s last data h =>
    refine ⟨[.parse 0], [], Machine.Run.single ?_⟩
    simp [machine, h]
  | case2 offset payload s next data h ih =>
    obtain ⟨actions, trace, hrun⟩ := ih
    have hstep : ∃ seen, machine.step ⟨s.1, rxBuffer, .parsing offset payload⟩
        (.parse (clock s.2)) =
        some (⟨(parsePayload clock s data).1, rxBuffer, .parsing next data⟩, seen) := by
      cases hex : execUpdateOf data (clock s.2) with
      | none => exact ⟨[], by simp [machine, h, hex, parsePayload]⟩
      | some ex =>
        exact ⟨[.parsed ex (s.1.orders.lookup ex.clOrdId)],
          by simp [machine, h, hex, parsePayload]⟩
    obtain ⟨seen, hstep⟩ := hstep
    exact ⟨.parse (clock s.2) :: actions, seen ++ trace, Machine.Run.cons hstep hrun⟩

/-- `handle_socket_read` is a run of the thread. -/
theorem run_handleSocketRead (clock : Nat → Int64) (s : State) (reads : Nat) (chunk : Bytes)
    (h : s.pc = .idle) :
    ∃ actions trace, machine.Run s actions
      ⟨(handleSocketRead clock (s.rxBuffer, s.engine, reads) chunk).2.1,
        (handleSocketRead clock (s.rxBuffer, s.engine, reads) chunk).1, .idle⟩ trace := by
  obtain ⟨engine, rxBuffer, pc⟩ := s
  cases h
  obtain ⟨actions, trace, hrun⟩ := run_parse_loop clock (rxBuffer ++ chunk) 0 [] (engine, reads)
  exact ⟨.recv chunk :: actions, [] ++ trace, Machine.Run.cons rfl hrun⟩

end OmsEngine

end CppCodes.Source.HftTest
