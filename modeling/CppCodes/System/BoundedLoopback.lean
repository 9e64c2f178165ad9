import CppCodes.System.Loopback

/-!
# The connection with bounded socket buffers

The two programs of `Loopback`, whose streams now hold a bounded number of octets that were
written and not received yet. `::send` takes no more than there is room for. With no room the
OMS is told to try again, and the simulator, whose socket blocks, waits in the call.

`work` bounds the steps that the two programs can take before the next order: an octet weighs
more on each side than behind it, and an octet of an order more than both reports on it.
-/

set_option autoImplicit false

namespace CppCodes.System.Bounded

open CppCodes.Library
open CppCodes.Source.HftTest
open CppCodes.System CppCodes.System.Loopback

/-- The octets that a stream holds at most. -/
structure Buffers where
  toSim : Nat
  toOms : Nat
  toSim_pos : 0 < toSim
  toOms_pos : 0 < toOms

def hasRoom (b : Buffers) (s : State) : Action → Bool
  | .oms (.send (.accepted n)) => s.toSim.length + n ≤ b.toSim
  | .sim (.send (.accepted n)) => s.toOms.length + n ≤ b.toOms
  | _ => true

def machine (b : Buffers) : Machine State Action Event where
  step s a := if hasRoom b s a then Loopback.machine.step s a else none

/-- The steps that take octets further. A new order brings some, a refused call of `::send` and a
pop of thread A leave them alone. -/
def moves : Action → Bool
  | .oms (.order _ _ _) => false
  | .oms .popExec => false
  | .oms (.send (.accepted _)) => true
  | .oms (.send _) => false
  | .sim (.send (.accepted _)) => true
  | .sim (.send _) => false
  | _ => true

/-- Both programs are in `::send`, and there is no room for either. -/
structure Stalled (b : Buffers) (s : State) : Prop where
  oms : OmsEngine.unsent s.oms ≠ []
  sim : SimExServer.unsent s.sim ≠ []
  toSim : s.toSim.length = b.toSim
  toOms : s.toOms.length = b.toOms

/-- The octets of the frame of an order, and of a report. -/
def orderFrame : Nat := 4 + sizeofWireNewOrder

def reportFrame : Nat := 4 + sizeofWireExecReport

variable {b : Buffers} {s u : State} {a : Action} {seen : List Event}

theorem step_iff : (machine b).step s a = some (u, seen) ↔
    hasRoom b s a = true ∧ Loopback.machine.step s a = some (u, seen) := by
  simp [machine]

/-! ## Where the programs stand -/

/-- A frame in `send_all` is not sent whole, and outside of the loop of `parse_exec_reports` no
frame is complete. -/
def OmsStands (o : OmsEngine.State) : Prop :=
  match o.pc with
  | .idle => splitFrame o.rxBuffer = none
  | .sending frame sent => sent < frame.length ∧ splitFrame o.rxBuffer = none
  | .parsing _ _ => True

def SimStands (e : SimExServer.State) : Prop :=
  match e.pc with
  | .receiving => splitFrame e.buf = none
  | .parsing _ => True
  | .sendingAck _ _ _ frame sent => sent < frame.length
  | .acked _ _ _ => True
  | .sendingFill _ frame sent => sent < frame.length

/-- A loop that goes on has something left to send. -/
theorem sent_lt {retried : SendResult → Bool} {frame taken : Bytes} {sent sent' : Nat}
    {r : SendResult} (hlt : sent < frame.length)
    (h : sendStep retried frame sent r = some (.again sent', taken)) : sent' < frame.length := by
  cases r with
  | accepted n =>
    obtain ⟨-, -, hnext⟩ := sendStep_accepted h
    split at hnext
    · cases hnext
      assumption
    · cases hnext
  | _ =>
    obtain ⟨-, hnext⟩ := sendStep_failed (by simp) h
    split at hnext
    · cases hnext
      exact hlt
    · cases hnext

/-- What `::send` takes leaves the rest of the frame. -/
theorem send_accepted {retried : SendResult → Bool} {frame taken : Bytes} {sent n : Nat}
    {next : SendNext} (h : sendStep retried frame sent (.accepted n) = some (next, taken)) :
    0 < n ∧ taken.length = n ∧ frame.length - sent = (next.left frame).length + n := by
  rw [sendStep] at h
  by_cases hn : 0 < n ∧ n ≤ frame.length - sent
  · rw [if_pos hn, Option.some.injEq, Prod.mk.injEq] at h
    obtain ⟨rfl, rfl⟩ := h
    refine ⟨hn.1, ?_, ?_⟩
    · rw [List.length_take, List.length_drop]
      omega
    · split
      · simp only [SendNext.left, List.length_drop]
        omega
      · simp only [SendNext.left, List.length_nil]
        omega
  · rw [if_neg hn] at h
    cases h

section Oms

variable {o v : OmsEngine.State} {heard : List OmsEngine.Event}

theorem omsStands_step {x : OmsEngine.Action} (stands : OmsStands o)
    (h : OmsEngine.machine.step o x = some (v, heard)) : OmsStands v := by
  obtain ⟨engine, rxBuffer, pc⟩ := o
  cases x with
  | order req now gaps =>
    cases pc with
    | idle =>
      simp only [OmsEngine.machine, Option.some.injEq, Prod.mk.injEq] at h
      obtain ⟨rfl, rfl⟩ := h
      refine ⟨?_, stands⟩
      rw [packWithLength_length]
      omega
    | _ => cases h
  | send r =>
    cases pc with
    | sending frame sent =>
      simp only [OmsEngine.machine] at h
      cases hr : sendStep OmsEngine.sendAllRetries frame sent r with
      | none =>
        rw [hr] at h
        cases h
      | some result =>
        obtain ⟨next, taken⟩ := result
        rw [hr] at h
        cases next with
        | again sent' =>
          cases h
          exact ⟨sent_lt stands.1 hr, stands.2⟩
        | done =>
          cases h
          exact stands.2
    | _ => cases h
  | recv chunk =>
    cases pc with
    | idle =>
      cases h
      trivial
    | _ => cases h
  | parse now =>
    cases pc with
    | parsing offset payload =>
      simp only [OmsEngine.machine, unpackFrame_drop] at h
      cases hsplit : splitFrame (rxBuffer.drop offset) with
      | none =>
        simp only [hsplit, Option.some.injEq, Prod.mk.injEq] at h
        obtain ⟨rfl, rfl⟩ := h
        exact hsplit
      | some split =>
        obtain ⟨data, rest⟩ := split
        simp only [hsplit] at h
        cases hex : OmsEngine.execUpdateOf data now with
        | none =>
          simp only [hex, Option.some.injEq, Prod.mk.injEq] at h
          obtain ⟨rfl, rfl⟩ := h
          trivial
        | some ex =>
          simp only [hex, Option.some.injEq, Prod.mk.injEq] at h
          obtain ⟨rfl, rfl⟩ := h
          trivial
    | _ => cases h
  | popExec =>
    simp only [OmsEngine.machine, Option.some.injEq, Prod.mk.injEq] at h
    obtain ⟨rfl, rfl⟩ := h
    exact stands

/-- `parsing` is a step away from the end of the loop. -/
def omsCost (o : OmsEngine.State) : Nat :=
  (OmsEngine.unread o).length +
    match o.pc with
    | .parsing _ _ => 1
    | _ => 0

theorem oms_send_cost {n : Nat} (h : OmsEngine.machine.step o (.send (.accepted n)) = some (v, heard)) :
    0 < n ∧ (OmsEngine.accepted heard).length = n ∧
      (OmsEngine.unsent o).length = (OmsEngine.unsent v).length + n ∧ omsCost v = omsCost o := by
  obtain ⟨engine, rxBuffer, pc⟩ := o
  cases pc with
  | sending frame sent =>
    simp only [OmsEngine.machine] at h
    cases hr : sendStep OmsEngine.sendAllRetries frame sent (.accepted n) with
    | none =>
      rw [hr] at h
      cases h
    | some result =>
      obtain ⟨next, taken⟩ := result
      rw [hr] at h
      obtain ⟨hn, htaken, hleft⟩ := send_accepted hr
      cases next with
      | again sent' =>
        cases h
        refine ⟨hn, ?_, ?_, rfl⟩
        · simpa [OmsEngine.accepted] using htaken
        · simpa [OmsEngine.unsent, SendNext.left] using hleft
      | done =>
        cases h
        refine ⟨hn, ?_, ?_, rfl⟩
        · simpa [OmsEngine.accepted] using htaken
        · simpa [OmsEngine.unsent, SendNext.left] using hleft
  | _ => cases h

theorem oms_recv_cost {chunk : Bytes} (h : OmsEngine.machine.step o (.recv chunk) = some (v, heard)) :
    heard = [] ∧ OmsEngine.unsent o = [] ∧ OmsEngine.unsent v = [] ∧
      omsCost v = omsCost o + chunk.length + 1 := by
  obtain ⟨engine, rxBuffer, pc⟩ := o
  cases pc with
  | idle =>
    cases h
    refine ⟨rfl, rfl, rfl, ?_⟩
    simp [omsCost, OmsEngine.unread]
  | _ => cases h

theorem oms_parse_cost {now : Int64} (h : OmsEngine.machine.step o (.parse now) = some (v, heard)) :
    OmsEngine.accepted heard = [] ∧ OmsEngine.unsent o = [] ∧ OmsEngine.unsent v = [] ∧
      omsCost v < omsCost o := by
  obtain ⟨engine, rxBuffer, pc⟩ := o
  cases pc with
  | parsing offset payload =>
    simp only [OmsEngine.machine, unpackFrame_drop] at h
    cases hsplit : splitFrame (rxBuffer.drop offset) with
    | none =>
      simp only [hsplit, Option.some.injEq, Prod.mk.injEq] at h
      obtain ⟨rfl, rfl⟩ := h
      refine ⟨rfl, rfl, rfl, ?_⟩
      simp [omsCost, OmsEngine.unread]
    | some split =>
      obtain ⟨data, rest⟩ := split
      have hshort : (rxBuffer.drop (offset + (4 + data.length))).length < (rxBuffer.drop offset).length := by
        have hlen := congrArg List.length (splitFrame_sound hsplit).2
        simp only [List.length_append, packWithLength_length, List.length_drop] at hlen ⊢
        omega
      simp only [hsplit] at h
      cases hex : OmsEngine.execUpdateOf data now with
      | none =>
        simp only [hex, Option.some.injEq, Prod.mk.injEq] at h
        obtain ⟨rfl, rfl⟩ := h
        exact ⟨rfl, rfl, rfl, Nat.add_lt_add_right hshort 1⟩
      | some ex =>
        simp only [hex, Option.some.injEq, Prod.mk.injEq] at h
        obtain ⟨rfl, rfl⟩ := h
        exact ⟨rfl, rfl, rfl, Nat.add_lt_add_right hshort 1⟩
  | _ => cases h

/-- Only a call of `::send` that is not refused puts octets on the stream. -/
theorem oms_accepted_cases {x : OmsEngine.Action} (h : OmsEngine.machine.step o x = some (v, heard)) :
    OmsEngine.accepted heard = [] ∨
      ∃ n, x = .send (.accepted n) ∧ (OmsEngine.accepted heard).length = n := by
  cases OmsEngine.step_effect h with
  | send r taken engine left read =>
    by_cases hr : ∃ n, r = .accepted n
    · obtain ⟨n, rfl⟩ := hr
      exact .inr ⟨n, rfl, (oms_send_cost h).2.1⟩
    · obtain ⟨engine, rxBuffer, pc⟩ := o
      cases pc with
      | sending frame sent =>
        simp only [OmsEngine.machine] at h
        cases hsend : sendStep OmsEngine.sendAllRetries frame sent r with
        | none =>
          rw [hsend] at h
          cases h
        | some result =>
          obtain ⟨next, now⟩ := result
          obtain ⟨rfl, -⟩ := sendStep_failed (not_exists.mp hr) hsend
          rw [hsend] at h
          cases next with
          | again sent' =>
            cases h
            exact .inl rfl
          | done =>
            cases h
            exact .inl rfl
      | _ => cases h
  | popExec engine sent read =>
    refine .inl ?_
    cases (o.engine.outbound.pop).2 <;> rfl
  | _ => exact .inl rfl

end Oms

section Sim

variable {e w : SimExServer.State} {heard : List SimExServer.Event}

theorem simStands_step {x : SimExServer.Action} (stands : SimStands e)
    (h : SimExServer.machine.step e x = some (w, heard)) : SimStands w := by
  obtain ⟨buf, pc⟩ := e
  cases x with
  | recv chunk =>
    cases pc with
    | receiving =>
      cases h
      trivial
    | _ => cases h
  | parse recvTs sendTs gaps =>
    cases pc with
    | parsing cursor =>
      simp only [SimExServer.machine, unpackFrame_drop] at h
      cases hsplit : splitFrame (buf.drop cursor.offset) with
      | none =>
        simp only [hsplit, Option.some.injEq, Prod.mk.injEq] at h
        obtain ⟨rfl, rfl⟩ := h
        exact hsplit
      | some split =>
        obtain ⟨data, rest⟩ := split
        simp only [hsplit] at h
        cases hw : SimExServer.newOrderOf data with
        | none =>
          simp only [hw, Option.some.injEq, Prod.mk.injEq] at h
          obtain ⟨rfl, rfl⟩ := h
          trivial
        | some order =>
          simp only [hw, Option.some.injEq, Prod.mk.injEq] at h
          obtain ⟨rfl, rfl⟩ := h
          simp only [SimStands, packWithLength_length]
          omega
    | _ => cases h
  | fill sendTs gaps =>
    cases pc with
    | acked cursor order recvTs =>
      simp only [SimExServer.machine, Option.some.injEq, Prod.mk.injEq] at h
      obtain ⟨rfl, rfl⟩ := h
      simp only [SimStands, packWithLength_length]
      omega
    | _ => cases h
  | send r =>
    cases pc with
    | sendingAck cursor order recvTs frame sent =>
      simp only [SimExServer.machine] at h
      cases hr : sendStep SimExServer.sendReportRetries frame sent r with
      | none =>
        rw [hr] at h
        cases h
      | some result =>
        obtain ⟨next, taken⟩ := result
        rw [hr] at h
        cases next with
        | again sent' =>
          cases h
          exact sent_lt stands hr
        | done =>
          cases h
          trivial
    | sendingFill cursor frame sent =>
      simp only [SimExServer.machine] at h
      cases hr : sendStep SimExServer.sendReportRetries frame sent r with
      | none =>
        rw [hr] at h
        cases h
      | some result =>
        obtain ⟨next, taken⟩ := result
        rw [hr] at h
        cases next with
        | again sent' =>
          cases h
          exact sent_lt stands hr
        | done =>
          cases h
          trivial
    | _ => cases h

/-- What the simulator still has to do before it waits in `recv`; a report has 76 octets. -/
def simCost (e : SimExServer.State) : Nat :=
  700 * (SimExServer.unread e).length + 4 * (SimExServer.unsent e).length +
    match e.pc with
    | .receiving => 0
    | .parsing _ => 1
    | .sendingFill _ _ _ => 2
    | .acked _ _ _ => 307
    | .sendingAck _ _ _ _ _ => 308

theorem report_length (rep : WireExecReport) : (packWithLength rep.toBytes).length = 76 := by
  rw [packWithLength_length, WireExecReport.toBytes_length]
  decide

theorem sim_send_cost {n : Nat}
    (h : SimExServer.machine.step e (.send (.accepted n)) = some (w, heard)) :
    0 < n ∧ (SimExServer.accepted heard).length = n ∧ simCost w + 4 * n ≤ simCost e := by
  obtain ⟨buf, pc⟩ := e
  cases pc with
  | sendingAck cursor order recvTs frame sent =>
    simp only [SimExServer.machine] at h
    cases hr : sendStep SimExServer.sendReportRetries frame sent (.accepted n) with
    | none =>
      rw [hr] at h
      cases h
    | some result =>
      obtain ⟨next, taken⟩ := result
      rw [hr] at h
      obtain ⟨hn, htaken, hleft⟩ := send_accepted hr
      cases next with
      | again sent' =>
        cases h
        refine ⟨hn, by simpa [SimExServer.accepted] using htaken, ?_⟩
        simp only [SendNext.left, List.length_drop] at hleft
        simp only [simCost, SimExServer.unread, SimExServer.unsent, List.length_drop]
        omega
      | done =>
        cases h
        refine ⟨hn, by simpa [SimExServer.accepted] using htaken, ?_⟩
        simp only [SendNext.left, List.length_nil] at hleft
        simp only [simCost, SimExServer.unread, SimExServer.unsent, List.length_drop, List.length_nil]
        omega
  | sendingFill cursor frame sent =>
    simp only [SimExServer.machine] at h
    cases hr : sendStep SimExServer.sendReportRetries frame sent (.accepted n) with
    | none =>
      rw [hr] at h
      cases h
    | some result =>
      obtain ⟨next, taken⟩ := result
      rw [hr] at h
      obtain ⟨hn, htaken, hleft⟩ := send_accepted hr
      cases next with
      | again sent' =>
        cases h
        refine ⟨hn, by simpa [SimExServer.accepted] using htaken, ?_⟩
        simp only [SendNext.left, List.length_drop] at hleft
        simp only [simCost, SimExServer.unread, SimExServer.unsent, List.length_drop]
        omega
      | done =>
        cases h
        refine ⟨hn, by simpa [SimExServer.accepted] using htaken, ?_⟩
        simp only [SendNext.left, List.length_nil] at hleft
        simp only [simCost, SimExServer.unread, SimExServer.unsent, List.length_drop, List.length_nil]
        omega
  | _ => cases h

theorem sim_accepted_cases {x : SimExServer.Action}
    (h : SimExServer.machine.step e x = some (w, heard)) :
    SimExServer.accepted heard = [] ∨
      ∃ n, x = .send (.accepted n) ∧ (SimExServer.accepted heard).length = n := by
  cases SimExServer.step_effect h with
  | send r taken left fill read =>
    by_cases hr : ∃ n, r = .accepted n
    · obtain ⟨n, rfl⟩ := hr
      exact .inr ⟨n, rfl, (sim_send_cost h).2.1⟩
    · have hnothing : ∀ {frame sent next now},
          sendStep SimExServer.sendReportRetries frame sent r = some (next, now) → now = [] :=
        fun hsend => (sendStep_failed (not_exists.mp hr) hsend).1
      obtain ⟨buf, pc⟩ := e
      cases pc with
      | sendingAck cursor order recvTs frame sent =>
        simp only [SimExServer.machine] at h
        cases hsend : sendStep SimExServer.sendReportRetries frame sent r with
        | none =>
          rw [hsend] at h
          cases h
        | some result =>
          obtain ⟨next, now⟩ := result
          rw [hsend, hnothing hsend] at h
          cases next with
          | again sent' =>
            cases h
            exact .inl rfl
          | done =>
            cases h
            exact .inl rfl
      | sendingFill cursor frame sent =>
        simp only [SimExServer.machine] at h
        cases hsend : sendStep SimExServer.sendReportRetries frame sent r with
        | none =>
          rw [hsend] at h
          cases h
        | some result =>
          obtain ⟨next, now⟩ := result
          rw [hsend, hnothing hsend] at h
          cases next with
          | again sent' =>
            cases h
            exact .inl rfl
          | done =>
            cases h
            exact .inl rfl
      | _ => cases h
  | _ => exact .inl rfl

theorem sim_recv_cost {chunk : Bytes}
    (h : SimExServer.machine.step e (.recv chunk) = some (w, heard)) :
    heard = [] ∧ simCost w = simCost e + 700 * chunk.length + 1 := by
  obtain ⟨buf, pc⟩ := e
  cases pc with
  | receiving =>
    cases h
    refine ⟨rfl, ?_⟩
    simp only [simCost, SimExServer.unread, SimExServer.unsent, List.drop_zero, List.length_append,
      List.length_nil]
    omega
  | _ => cases h

theorem sim_parse_cost {recvTs sendTs : Int64} {gaps : UInt32 × UInt32}
    (h : SimExServer.machine.step e (.parse recvTs sendTs gaps) = some (w, heard)) :
    SimExServer.accepted heard = [] ∧ simCost w < simCost e := by
  obtain ⟨buf, pc⟩ := e
  cases pc with
  | parsing cursor =>
    simp only [SimExServer.machine, unpackFrame_drop] at h
    cases hsplit : splitFrame (buf.drop cursor.offset) with
    | none =>
      simp only [hsplit, Option.some.injEq, Prod.mk.injEq] at h
      obtain ⟨rfl, rfl⟩ := h
      refine ⟨rfl, ?_⟩
      simp only [simCost, SimExServer.unread, SimExServer.unsent]
      omega
    | some split =>
      obtain ⟨data, rest⟩ := split
      have hshort : (buf.drop (cursor.offset + (4 + data.length))).length <
          (buf.drop cursor.offset).length := by
        have hlen := congrArg List.length (splitFrame_sound hsplit).2
        simp only [List.length_append, packWithLength_length, List.length_drop] at hlen ⊢
        omega
      simp only [hsplit] at h
      cases hw : SimExServer.newOrderOf data with
      | none =>
        simp only [hw, Option.some.injEq, Prod.mk.injEq] at h
        obtain ⟨rfl, rfl⟩ := h
        refine ⟨rfl, ?_⟩
        simp only [simCost, SimExServer.unread, SimExServer.unsent]
        omega
      | some order =>
        simp only [hw, Option.some.injEq, Prod.mk.injEq] at h
        obtain ⟨rfl, rfl⟩ := h
        refine ⟨rfl, ?_⟩
        simp only [simCost, SimExServer.unread, SimExServer.unsent, List.drop_zero, report_length,
          List.length_nil]
        omega
  | _ => cases h

theorem sim_fill_cost {sendTs : Int64} {gaps : UInt32 × UInt32}
    (h : SimExServer.machine.step e (.fill sendTs gaps) = some (w, heard)) :
    SimExServer.accepted heard = [] ∧ simCost w < simCost e := by
  obtain ⟨buf, pc⟩ := e
  cases pc with
  | acked cursor order recvTs =>
    simp only [SimExServer.machine, Option.some.injEq, Prod.mk.injEq] at h
    obtain ⟨rfl, rfl⟩ := h
    refine ⟨rfl, ?_⟩
    simp only [simCost, SimExServer.unread, SimExServer.unsent, List.drop_zero, report_length,
      List.length_nil]
    omega
  | _ => cases h

end Sim

/-! ## A step of the whole -/

/-- A step of the connection, as a step of one of the two programs. -/
inductive Taken (s u : State) : Action → List Event → Prop where
  | oms (x : OmsEngine.Action) (v : OmsEngine.State) (heard : List OmsEngine.Event)
      (may : omsMay x = true) (step : OmsEngine.machine.step s.oms x = some (v, heard))
      (after : u = { s with oms := v, toSim := s.toSim ++ OmsEngine.accepted heard }) :
      Taken s u (.oms x) (heard.map .oms)
  | omsRecv (n : Nat) (v : OmsEngine.State) (heard : List OmsEngine.Event)
      (some_octets : 0 < n ∧ n ≤ s.toOms.length)
      (step : OmsEngine.machine.step s.oms (.recv (s.toOms.take n)) = some (v, heard))
      (after : u = { s with
        oms := v
        toSim := s.toSim ++ OmsEngine.accepted heard
        toOms := s.toOms.drop n }) : Taken s u (.omsRecv n) (heard.map .oms)
  | sim (x : SimExServer.Action) (w : SimExServer.State) (heard : List SimExServer.Event)
      (may : simMay x = true) (step : SimExServer.machine.step s.sim x = some (w, heard))
      (after : u = { s with sim := w, toOms := s.toOms ++ SimExServer.accepted heard }) :
      Taken s u (.sim x) (heard.map .sim)
  | simRecv (n : Nat) (w : SimExServer.State) (heard : List SimExServer.Event)
      (some_octets : 0 < n ∧ n ≤ s.toSim.length)
      (step : SimExServer.machine.step s.sim (.recv (s.toSim.take n)) = some (w, heard))
      (after : u = { s with
        sim := w
        toOms := s.toOms ++ SimExServer.accepted heard
        toSim := s.toSim.drop n }) : Taken s u (.simRecv n) (heard.map .sim)

theorem step_taken (h : Loopback.machine.step s a = some (u, seen)) : Taken s u a seen := by
  cases a with
  | oms x =>
    simp only [Loopback.machine, omsStep] at h
    split at h
    · next hmay =>
      cases hstep : OmsEngine.machine.step s.oms x with
      | none =>
        rw [hstep] at h
        cases h
      | some result =>
        rw [hstep] at h
        cases h
        exact .oms x _ _ hmay hstep rfl
    · cases h
  | omsRecv n =>
    simp only [Loopback.machine, omsStep] at h
    split at h
    · next hn =>
      cases hstep : OmsEngine.machine.step s.oms (.recv (s.toOms.take n)) with
      | none =>
        rw [hstep] at h
        cases h
      | some result =>
        rw [hstep] at h
        cases h
        exact .omsRecv n _ _ hn hstep rfl
    · cases h
  | sim x =>
    simp only [Loopback.machine, simStep] at h
    split at h
    · next hmay =>
      cases hstep : SimExServer.machine.step s.sim x with
      | none =>
        rw [hstep] at h
        cases h
      | some result =>
        rw [hstep] at h
        cases h
        exact .sim x _ _ hmay hstep rfl
    · cases h
  | simRecv n =>
    simp only [Loopback.machine, simStep] at h
    split at h
    · next hn =>
      cases hstep : SimExServer.machine.step s.sim (.recv (s.toSim.take n)) with
      | none =>
        rw [hstep] at h
        cases h
      | some result =>
        rw [hstep] at h
        cases h
        exact .simRecv n _ _ hn hstep rfl
    · cases h

structure Stands (s : State) : Prop where
  oms : OmsStands s.oms
  sim : SimStands s.sim

theorem Stands.step (h : Stands s) (hstep : Loopback.machine.step s a = some (u, seen)) : Stands u := by
  cases step_taken hstep with
  | oms x v heard may step after =>
    rw [after]
    exact ⟨omsStands_step h.oms step, h.sim⟩
  | omsRecv n v heard some_octets step after =>
    rw [after]
    exact ⟨omsStands_step h.oms step, h.sim⟩
  | sim x w heard may step after =>
    rw [after]
    exact ⟨h.oms, simStands_step h.sim step⟩
  | simRecv n w heard some_octets step after =>
    rw [after]
    exact ⟨h.oms, simStands_step h.sim step⟩

def work (s : State) : Nat :=
  703 * (OmsEngine.unsent s.oms).length + 702 * s.toSim.length + simCost s.sim +
    3 * s.toOms.length + omsCost s.oms

/-- Every step that takes octets further leaves less to do. -/
theorem work_lt (hmoves : moves a = true) (h : Loopback.machine.step s a = some (u, seen)) :
    work u < work s := by
  cases step_taken h with
  | oms x v heard may step after =>
    subst after
    cases x with
    | order req now gaps => cases hmoves
    | popExec => cases hmoves
    | recv chunk => cases may
    | parse now =>
      obtain ⟨haccepted, hbefore, hafter, hcost⟩ := oms_parse_cost step
      simp only [work, haccepted, hbefore, hafter, List.append_nil]
      omega
    | send r =>
      cases r with
      | accepted n =>
        obtain ⟨hn, haccepted, hunsent, hcost⟩ := oms_send_cost step
        simp only [work, List.length_append]
        omega
      | _ => cases hmoves
  | omsRecv n v heard some_octets step after =>
    subst after
    obtain ⟨rfl, hbefore, hafter, hcost⟩ := oms_recv_cost step
    rw [List.length_take] at hcost
    simp only [work, hbefore, hafter, List.length_drop, List.length_append, OmsEngine.accepted,
      List.flatMap_nil, List.length_nil]
    omega
  | sim x w heard may step after =>
    subst after
    cases x with
    | recv chunk => cases may
    | parse recvTs sendTs gaps =>
      obtain ⟨haccepted, hcost⟩ := sim_parse_cost step
      simp only [work, haccepted, List.append_nil]
      omega
    | fill sendTs gaps =>
      obtain ⟨haccepted, hcost⟩ := sim_fill_cost step
      simp only [work, haccepted, List.append_nil]
      omega
    | send r =>
      cases r with
      | accepted n =>
        obtain ⟨hn, haccepted, hcost⟩ := sim_send_cost step
        simp only [work, List.length_append]
        omega
      | _ => cases hmoves
  | simRecv n w heard some_octets step after =>
    subst after
    obtain ⟨rfl, hcost⟩ := sim_recv_cost step
    rw [List.length_take] at hcost
    simp only [work, List.length_drop, List.length_append, SimExServer.accepted, List.flatMap_nil,
      List.length_nil]
    omega

end CppCodes.System.Bounded
