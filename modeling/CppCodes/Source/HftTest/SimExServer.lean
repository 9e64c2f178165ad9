import CppCodes.Library.Machine
import CppCodes.Source.HftTest.Framing

/-!
# The exchange simulator's connection

Source: hft_test/src/simex_server.cpp:65-127. `machine` runs `handle_client` one
call of `recv`, `unpack_frame` or `send` at a time; building a report is the end
of the step before its first `send`. The two delays only let time pass, and
`now_ns` and the alignment gaps of `WireExecReport` are inputs.
-/

set_option autoImplicit false

namespace CppCodes.Source.HftTest

open CppCodes.Library

namespace SimExServer

/-- The two `continue` checks of `parse_messages` and the order behind them. -/
def newOrderOf (payload : Bytes) : Option WireNewOrder :=
  if payload.length < sizeofWireNewOrder then none
  else
    let w := WireNewOrder.ofBytes payload
    if w.hdr.magic ≠ kProtocolMagic ∨ w.hdr.msgType ≠ kMsgNewOrder then none
    else some w

/-- The report that `send_report` fills in. -/
def report (w : WireNewOrder) (type : ExecType) (fillPx fillQty tRecv tSend : Int64)
    (gaps : UInt32 × UInt32) : WireExecReport where
  hdr := { magic := kProtocolMagic, msgType := kMsgExecReport }
  padding4 := gaps.1
  clOrdId := w.clOrdId
  mdEventId := w.mdEventId
  execType := type.toByte
  padding28 := gaps.2
  fillPx := fillPx
  fillQty := fillQty
  tSimRecvNs := tRecv
  tSimSendNs := tSend

/-- The two reports of `handle_new_order`. -/
def ackReport (w : WireNewOrder) (tRecv tSend : Int64) (gaps : UInt32 × UInt32) : WireExecReport :=
  report w .ack 0 0 tRecv tSend gaps

def fillReport (w : WireNewOrder) (tRecv tSend : Int64) (gaps : UInt32 × UInt32) : WireExecReport :=
  report w .fill w.px w.qty tRecv tSend gaps

/-- The loop body of `parse_messages` with a whole `handle_new_order` in it, as
the reports handed to `send`. `clock` holds the readings of `now_ns`, three for
each order; the counter says how many were used. -/
def parsePayload (clock : Nat → Int64) (gaps : Nat → UInt32 × UInt32)
    (s : List WireExecReport × Nat) (payload : Bytes) : List WireExecReport × Nat :=
  match newOrderOf payload with
  | none => s
  | some w =>
      (s.1 ++ [ackReport w (clock s.2) (clock (s.2 + 1)) (gaps s.2),
        fillReport w (clock s.2) (clock (s.2 + 2)) (gaps (s.2 + 1))], s.2 + 3)

/-- One `recv` of `handle_client` and its `parse_messages`. -/
def handleRead (clock : Nat → Int64) (gaps : Nat → UInt32 × UInt32)
    (s : Bytes × List WireExecReport × Nat) (chunk : Bytes) :
    Bytes × List WireExecReport × Nat :=
  receive (parsePayload clock gaps) s chunk

/-! ## The connection -/

/-- The loop of `send_report` calls again after `EINTR` only. -/
def sendReportRetries (r : SendResult) : Bool := r == .eintr

/-- The position in the loop of `parse_messages`. -/
structure Cursor where
  offset : Nat
  payload : Bytes
  deriving DecidableEq

/-- Where the server stands: before `recv`, in the loop of `parse_messages`, and
inside `handle_new_order` in the first `send_report`, in the delay before the
second one, and in the second one. -/
inductive Pc where
  | receiving
  | parsing (cursor : Cursor)
  | sendingAck (cursor : Cursor) (w : WireNewOrder) (recvTs : Int64) (frame : Bytes) (sent : Nat)
  | acked (cursor : Cursor) (w : WireNewOrder) (recvTs : Int64)
  | sendingFill (cursor : Cursor) (frame : Bytes) (sent : Nat)
  deriving DecidableEq

structure State where
  buf : Bytes := []
  pc : Pc := .receiving

inductive Action where
  | recv (chunk : Bytes)
  | parse (recvTs sendTs : Int64) (gaps : UInt32 × UInt32)
  | fill (sendTs : Int64) (gaps : UInt32 × UInt32)
  | send (result : SendResult)
  deriving DecidableEq

inductive Event where
  | reported (w : WireNewOrder) (rep : WireExecReport)
  | accepted (bytes : Bytes)
  deriving DecidableEq

def machine : Machine State Action Event where
  step s
    | .recv chunk =>
        match s.pc with
        | .receiving => some ({ buf := s.buf ++ chunk, pc := .parsing ⟨0, []⟩ }, [])
        | _ => none
    | .parse recvTs sendTs gaps =>
        match s.pc with
        | .parsing cursor =>
            match unpackFrame s.buf cursor.offset cursor.payload with
            | (false, last, _) => some ({ buf := s.buf.drop last, pc := .receiving }, [])
            | (true, next, data) =>
                match newOrderOf data with
                | none => some ({ s with pc := .parsing ⟨next, data⟩ }, [])
                | some w =>
                    let rep := ackReport w recvTs sendTs gaps
                    some ({ s with
                      pc := .sendingAck ⟨next, data⟩ w recvTs (packWithLength rep.toBytes) 0 },
                      [.reported w rep])
        | _ => none
    | .fill sendTs gaps =>
        match s.pc with
        | .acked cursor w recvTs =>
            let rep := fillReport w recvTs sendTs gaps
            some ({ s with pc := .sendingFill cursor (packWithLength rep.toBytes) 0 },
              [.reported w rep])
        | _ => none
    | .send result =>
        match s.pc with
        | .sendingAck cursor w recvTs frame sent =>
            match sendStep sendReportRetries frame sent result with
            | none => none
            | some (.again sent', taken) =>
                some ({ s with pc := .sendingAck cursor w recvTs frame sent' }, [.accepted taken])
            | some (.done, taken) => some ({ s with pc := .acked cursor w recvTs }, [.accepted taken])
        | .sendingFill cursor frame sent =>
            match sendStep sendReportRetries frame sent result with
            | none => none
            | some (.again sent', taken) =>
                some ({ s with pc := .sendingFill cursor frame sent' }, [.accepted taken])
            | some (.done, taken) => some ({ s with pc := .parsing cursor }, [.accepted taken])
        | _ => none

/-- The octets of the current report that `::send` has not taken yet. -/
def unsent (s : State) : Bytes :=
  match s.pc with
  | .sendingAck _ _ _ frame sent => frame.drop sent
  | .sendingFill _ frame sent => frame.drop sent
  | _ => []

/-- The received octets that no frame has been made of yet. -/
def unread (s : State) : Bytes :=
  match s.pc with
  | .receiving => s.buf
  | .parsing cursor => s.buf.drop cursor.offset
  | .sendingAck cursor _ _ _ _ => s.buf.drop cursor.offset
  | .acked cursor _ _ => s.buf.drop cursor.offset
  | .sendingFill cursor _ _ => s.buf.drop cursor.offset

/-- The order whose fill has not been built yet. -/
def unfilled (s : State) : Option WireNewOrder :=
  match s.pc with
  | .sendingAck _ w _ _ _ => some w
  | .acked _ w _ => some w
  | _ => none

/-- The reports built, oldest first. -/
def reported (trace : List Event) : List WireExecReport :=
  trace.filterMap fun
    | .reported _ rep => some rep
    | _ => none

/-- The octets the socket has taken. -/
def accepted (trace : List Event) : Bytes :=
  trace.flatMap fun
    | .accepted bytes => bytes
    | _ => []

/-! ## What a step does -/

/-- One step, with the state seen as the octets not sent, the octets not read and
the order not filled. -/
inductive Effect (s u : State) : Action → List Event → Prop where
  | recv (chunk : Bytes) (idle : s.pc = .receiving) (sent : unsent u = [])
      (fill : unfilled u = none) (read : unread u = unread s ++ chunk) :
      Effect s u (.recv chunk) []
  | leaveLoop (recvTs sendTs : Int64) (gaps : UInt32 × UInt32)
      (noFrame : splitFrame (unread s) = none) (idle : u.pc = .receiving) (before : unsent s = [])
      (noFill : unfilled s = none) (read : unread u = unread s) :
      Effect s u (.parse recvTs sendTs gaps) []
  | skip (recvTs sendTs : Int64) (gaps : UInt32 × UInt32) (data rest : Bytes)
      (split : splitFrame (unread s) = some (data, rest)) (invalid : newOrderOf data = none)
      (before : unsent s = []) (sent : unsent u = []) (noFill : unfilled s = none)
      (fill : unfilled u = none) (read : unread u = rest) :
      Effect s u (.parse recvTs sendTs gaps) []
  | ack (recvTs sendTs : Int64) (gaps : UInt32 × UInt32) (data rest : Bytes) (w : WireNewOrder)
      (split : splitFrame (unread s) = some (data, rest)) (valid : newOrderOf data = some w)
      (before : unsent s = [])
      (sent : unsent u = packWithLength (ackReport w recvTs sendTs gaps).toBytes)
      (noFill : unfilled s = none) (fill : unfilled u = some w) (read : unread u = rest) :
      Effect s u (.parse recvTs sendTs gaps) [.reported w (ackReport w recvTs sendTs gaps)]
  | fill (sendTs : Int64) (gaps : UInt32 × UInt32) (w : WireNewOrder) (recvTs : Int64)
      (before : unsent s = [])
      (sent : unsent u = packWithLength (fillReport w recvTs sendTs gaps).toBytes)
      (due : unfilled s = some w) (done : unfilled u = none) (read : unread u = unread s) :
      Effect s u (.fill sendTs gaps) [.reported w (fillReport w recvTs sendTs gaps)]
  | send (r : SendResult) (taken : Bytes)
      (sent : unsent s = taken ++ unsent u ∨
        (sendReportRetries r = false ∧ (∀ n, r ≠ .accepted n) ∧ taken = [] ∧ unsent u = []))
      (fill : unfilled u = unfilled s) (read : unread u = unread s) :
      Effect s u (.send r) [.accepted taken]

theorem step_effect {s u : State} {a : Action} {seen : List Event}
    (h : machine.step s a = some (u, seen)) : Effect s u a seen := by
  obtain ⟨buf, pc⟩ := s
  cases a with
  | recv chunk =>
    cases pc with
    | receiving =>
      simp only [machine, Option.some.injEq, Prod.mk.injEq] at h
      obtain ⟨rfl, rfl⟩ := h
      exact .recv chunk rfl rfl rfl (by simp [unread])
    | _ => cases h
  | parse recvTs sendTs gaps =>
    cases pc with
    | parsing cursor =>
      simp only [machine, unpackFrame_drop] at h
      cases hsplit : splitFrame (buf.drop cursor.offset) with
      | none =>
        simp only [hsplit, Option.some.injEq, Prod.mk.injEq] at h
        obtain ⟨rfl, rfl⟩ := h
        exact .leaveLoop recvTs sendTs gaps hsplit rfl rfl rfl rfl
      | some split =>
        obtain ⟨data, rest⟩ := split
        have hrest : buf.drop (cursor.offset + (4 + data.length)) = rest := by
          rw [← List.drop_drop, (splitFrame_sound hsplit).2, ← packWithLength_length,
            List.drop_left]
        simp only [hsplit] at h
        cases hw : newOrderOf data with
        | none =>
          simp only [hw, Option.some.injEq, Prod.mk.injEq] at h
          obtain ⟨rfl, rfl⟩ := h
          exact .skip recvTs sendTs gaps data rest hsplit hw rfl rfl rfl rfl hrest
        | some w =>
          simp only [hw, Option.some.injEq, Prod.mk.injEq] at h
          obtain ⟨rfl, rfl⟩ := h
          exact .ack recvTs sendTs gaps data rest w hsplit hw rfl (by simp [unsent]) rfl rfl hrest
    | _ => cases h
  | fill sendTs gaps =>
    cases pc with
    | acked cursor w recvTs =>
      simp only [machine, Option.some.injEq, Prod.mk.injEq] at h
      obtain ⟨rfl, rfl⟩ := h
      exact .fill sendTs gaps w recvTs rfl (by simp [unsent]) rfl rfl rfl
    | _ => cases h
  | send r =>
    cases pc with
    | sendingAck cursor w recvTs frame sent =>
      simp only [machine] at h
      cases hr : sendStep sendReportRetries frame sent r with
      | none =>
        rw [hr] at h
        cases h
      | some result =>
        obtain ⟨next, taken⟩ := result
        rw [hr] at h
        have hleft := sendStep_left hr
        cases next with
        | again sent' =>
          cases h
          exact .send r taken hleft rfl rfl
        | done =>
          cases h
          exact .send r taken hleft rfl rfl
    | sendingFill cursor frame sent =>
      simp only [machine] at h
      cases hr : sendStep sendReportRetries frame sent r with
      | none =>
        rw [hr] at h
        cases h
      | some result =>
        obtain ⟨next, taken⟩ := result
        rw [hr] at h
        have hleft := sendStep_left hr
        cases next with
        | again sent' =>
          cases h
          exact .send r taken hleft rfl rfl
        | done =>
          cases h
          exact .send r taken hleft rfl rfl
    | _ => cases h

/-! ## Uninterrupted calls -/

theorem sendStep_whole (rep : WireExecReport) :
    sendStep sendReportRetries (packWithLength rep.toBytes) 0
      (.accepted (packWithLength rep.toBytes).length) =
      some (.done, packWithLength rep.toBytes) := by
  rw [sendStep, if_pos (by simp), List.drop_zero, List.take_length, if_neg (by omega)]

/-- A whole `handle_new_order`, each report taken by one call of `send`. -/
theorem run_handleNewOrder (buf : Bytes) (cursor : Cursor) (w : WireNewOrder)
    (recvTs ackTs fillTs : Int64) (ackGaps fillGaps : UInt32 × UInt32) :
    ∃ actions trace, machine.Run
      ⟨buf, .sendingAck cursor w recvTs (packWithLength (ackReport w recvTs ackTs ackGaps).toBytes) 0⟩
      actions ⟨buf, .parsing cursor⟩ trace ∧
      reported trace = [fillReport w recvTs fillTs fillGaps] := by
  let ack := packWithLength (ackReport w recvTs ackTs ackGaps).toBytes
  let fill := packWithLength (fillReport w recvTs fillTs fillGaps).toBytes
  have hack : machine.step ⟨buf, .sendingAck cursor w recvTs ack 0⟩ (.send (.accepted ack.length)) =
      some (⟨buf, .acked cursor w recvTs⟩, [.accepted ack]) := by
    simp only [machine, ack, sendStep_whole]
  have hbuild : machine.step ⟨buf, .acked cursor w recvTs⟩ (.fill fillTs fillGaps) =
      some (⟨buf, .sendingFill cursor fill 0⟩,
        [.reported w (fillReport w recvTs fillTs fillGaps)]) := rfl
  have hfill : machine.step ⟨buf, .sendingFill cursor fill 0⟩ (.send (.accepted fill.length)) =
      some (⟨buf, .parsing cursor⟩, [.accepted fill]) := by
    simp only [machine, fill, sendStep_whole]
  exact ⟨_, _, Machine.Run.cons hack (Machine.Run.cons hbuild (Machine.Run.single hfill)), rfl⟩

/-- The loop of `parse_messages` from where it stands. -/
theorem run_parse_loop (clock : Nat → Int64) (gaps : Nat → UInt32 × UInt32) (buf : Bytes)
    (offset : Nat) (payload : Bytes) (s : List WireExecReport × Nat) :
    ∃ actions trace, machine.Run ⟨buf, .parsing ⟨offset, payload⟩⟩ actions
      ⟨buf.drop (frameLoop buf (parsePayload clock gaps) offset payload s).2, .receiving⟩ trace ∧
      (frameLoop buf (parsePayload clock gaps) offset payload s).1.1 = s.1 ++ reported trace := by
  fun_induction frameLoop buf (parsePayload clock gaps) offset payload s with
  | case1 offset payload s last data h =>
    refine ⟨[.parse 0 0 (0, 0)], [], Machine.Run.single ?_, by simp [reported]⟩
    simp [machine, h]
  | case2 offset payload s next data h ih =>
    obtain ⟨actions, trace, hrun, hsent⟩ := ih
    cases hw : newOrderOf data with
    | none =>
      have hstep : machine.step ⟨buf, .parsing ⟨offset, payload⟩⟩ (.parse 0 0 (0, 0)) =
          some (⟨buf, .parsing ⟨next, data⟩⟩, []) := by
        simp [machine, h, hw]
      have hsame : parsePayload clock gaps s data = s := by simp [parsePayload, hw]
      rw [hsame] at hrun hsent ⊢
      exact ⟨.parse 0 0 (0, 0) :: actions, [] ++ trace, Machine.Run.cons hstep hrun, hsent⟩
    | some w =>
      have hstep : machine.step ⟨buf, .parsing ⟨offset, payload⟩⟩
          (.parse (clock s.2) (clock (s.2 + 1)) (gaps s.2)) =
          some (⟨buf, .sendingAck ⟨next, data⟩ w (clock s.2) (packWithLength (ackReport w (clock s.2)
            (clock (s.2 + 1)) (gaps s.2)).toBytes) 0⟩,
            [.reported w (ackReport w (clock s.2) (clock (s.2 + 1)) (gaps s.2))]) := by
        simp [machine, h, hw]
      obtain ⟨handling, during, hhandle, hfill⟩ := run_handleNewOrder buf ⟨next, data⟩ w
        (clock s.2) (clock (s.2 + 1)) (clock (s.2 + 2)) (gaps s.2) (gaps (s.2 + 1))
      refine ⟨_, _, Machine.Run.cons hstep (hhandle.append hrun), ?_⟩
      rw [hsent]
      simp only [parsePayload, hw, reported, List.filterMap_append] at hfill ⊢
      simp [hfill]

/-- A `recv` and its `parse_messages` are a run of the connection, and the reports
it hands to `send` are those of `handleRead`. -/
theorem run_handleRead (clock : Nat → Int64) (gaps : Nat → UInt32 × UInt32) (s : State)
    (sent : List WireExecReport × Nat) (chunk : Bytes) (h : s.pc = .receiving) :
    ∃ actions trace, machine.Run s actions
      ⟨(handleRead clock gaps (s.buf, sent) chunk).1, .receiving⟩ trace ∧
      (handleRead clock gaps (s.buf, sent) chunk).2.1 = sent.1 ++ reported trace := by
  obtain ⟨buf, pc⟩ := s
  cases h
  obtain ⟨actions, trace, hrun, hsent⟩ := run_parse_loop clock gaps (buf ++ chunk) 0 [] sent
  exact ⟨.recv chunk :: actions, [] ++ trace, Machine.Run.cons rfl hrun, hsent⟩

end SimExServer

end CppCodes.Source.HftTest
