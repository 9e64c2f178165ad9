import CppCodes.Source.HftTest.SimExServer
import CppCodes.System.Ledger

/-!
# The OMS and the simulator over one TCP connection

Two reliable byte streams join the two programs. The streams deliver what was
written, in order, in pieces of any size; `::send` takes some octets or fails with
the error after which its caller tries again. Both programs take their own steps
in any order.

`Flow` relates the octets in flight to the orders and the reports that are still
to come out of them: what the simulator has not read, what is on the stream and
what the OMS has not sent are the frames of the orders not handled yet, and the
same on the way back.
-/

set_option autoImplicit false

namespace CppCodes.System

open CppCodes.Library
open CppCodes.Source.HftTest

namespace Loopback

structure State where
  oms : OmsEngine.State
  sim : SimExServer.State := {}
  toSim : Bytes := []
  toOms : Bytes := []

inductive Action where
  | oms (a : OmsEngine.Action)
  | omsRecv (n : Nat)
  | sim (a : SimExServer.Action)
  | simRecv (n : Nat)
  deriving DecidableEq

inductive Event where
  | oms (e : OmsEngine.Event)
  | sim (e : SimExServer.Event)
  deriving DecidableEq

/-- `::send` takes something or its caller tries again. -/
def reliable (retried : SendResult → Bool) : SendResult → Bool
  | .accepted _ => true
  | failure => retried failure

/-- The steps the OMS takes by itself, over a connection that does not fail. -/
def omsMay : OmsEngine.Action → Bool
  | .recv _ => false
  | .send r => reliable OmsEngine.sendAllRetries r
  | _ => true

def simMay : SimExServer.Action → Bool
  | .recv _ => false
  | .send r => reliable SimExServer.sendReportRetries r
  | _ => true

def omsStep (s : State) (a : OmsEngine.Action) (toOms : Bytes) : Option (State × List Event) :=
  match OmsEngine.machine.step s.oms a with
  | none => none
  | some (oms, seen) =>
      some ({ s with oms, toSim := s.toSim ++ OmsEngine.accepted seen, toOms }, seen.map .oms)

def simStep (s : State) (a : SimExServer.Action) (toSim : Bytes) : Option (State × List Event) :=
  match SimExServer.machine.step s.sim a with
  | none => none
  | some (sim, seen) =>
      some ({ s with sim, toOms := s.toOms ++ SimExServer.accepted seen, toSim }, seen.map .sim)

def machine : Machine State Action Event where
  step s
    | .oms a => if omsMay a then omsStep s a s.toOms else none
    | .omsRecv n =>
        if 0 < n ∧ n ≤ s.toOms.length then omsStep s (.recv (s.toOms.take n)) (s.toOms.drop n)
        else none
    | .sim a => if simMay a then simStep s a s.toSim else none
    | .simRecv n =>
        if 0 < n ∧ n ≤ s.toSim.length then simStep s (.recv (s.toSim.take n)) (s.toSim.drop n)
        else none

def start (data : Fin (2 ^ kRingDepthLog) → ExecUpdate) : State where
  oms := OmsEngine.start data

def omsTrace (trace : List Event) : List OmsEngine.Event :=
  trace.filterMap fun
    | .oms e => some e
    | _ => none

def simTrace (trace : List Event) : List SimExServer.Event :=
  trace.filterMap fun
    | .sim e => some e
    | _ => none

/-- The orders sent, oldest first. -/
def orders (trace : List Event) : List Order := OmsEngine.ordered (omsTrace trace)

/-- The reports the simulator built, oldest first. -/
def reported (trace : List Event) : List Answer :=
  (SimExServer.reported (simTrace trace)).map .ofReport

/-- The valid reports the OMS parsed, oldest first. -/
def parsed (trace : List Event) : List Answer :=
  (OmsEngine.parsed (omsTrace trace)).map .ofUpdate

/-- The step of the OMS in a step of the whole. -/
def omsAction (s : State) : Action → Option OmsEngine.Action
  | .oms a => some a
  | .omsRecv n => some (.recv (s.toOms.take n))
  | _ => none

theorem omsTrace_map_oms (seen : List OmsEngine.Event) : omsTrace (seen.map .oms) = seen := by
  induction seen with
  | nil => rfl
  | cons e seen ih => exact congrArg (e :: ·) ih

theorem omsTrace_map_sim (seen : List SimExServer.Event) : omsTrace (seen.map .sim) = [] := by
  induction seen with
  | nil => rfl
  | cons e seen ih => exact ih

theorem omsTrace_append (before after : List Event) :
    omsTrace (before ++ after) = omsTrace before ++ omsTrace after := List.filterMap_append

/-- The OMS takes its step, or it stays as it is. -/
theorem step_oms {s u : State} {a : Action} {seen : List Event}
    (h : machine.step s a = some (u, seen)) :
    (∃ a', omsAction s a = some a' ∧
      OmsEngine.machine.step s.oms a' = some (u.oms, omsTrace seen)) ∨
      (omsAction s a = none ∧ u.oms = s.oms ∧ omsTrace seen = []) := by
  have homs : ∀ {a' toOms}, omsStep s a' toOms = some (u, seen) →
      OmsEngine.machine.step s.oms a' = some (u.oms, omsTrace seen) := by
    intro a' toOms hstep
    unfold omsStep at hstep
    cases hr : OmsEngine.machine.step s.oms a' with
    | none =>
      rw [hr] at hstep
      cases hstep
    | some result =>
      rw [hr] at hstep
      simp only [Option.some.injEq, Prod.mk.injEq] at hstep
      obtain ⟨rfl, rfl⟩ := hstep
      rw [omsTrace_map_oms]
  have hsim : ∀ {a' toSim}, simStep s a' toSim = some (u, seen) →
      u.oms = s.oms ∧ omsTrace seen = [] := by
    intro a' toSim hstep
    unfold simStep at hstep
    cases hr : SimExServer.machine.step s.sim a' with
    | none =>
      rw [hr] at hstep
      cases hstep
    | some result =>
      rw [hr] at hstep
      simp only [Option.some.injEq, Prod.mk.injEq] at hstep
      obtain ⟨rfl, rfl⟩ := hstep
      exact ⟨rfl, omsTrace_map_sim _⟩
  cases a with
  | oms a =>
    simp only [machine] at h
    split at h
    · exact Or.inl ⟨a, rfl, homs h⟩
    · cases h
  | omsRecv n =>
    simp only [machine] at h
    split at h
    · exact Or.inl ⟨_, rfl, homs h⟩
    · cases h
  | sim a =>
    simp only [machine] at h
    split at h
    · exact Or.inr ⟨rfl, hsim h⟩
    · cases h
  | simRecv n =>
    simp only [machine] at h
    split at h
    · exact Or.inr ⟨rfl, hsim h⟩
    · cases h

/-- What a step of the connection adds to its history. -/
theorem step_history {s u : State} {a : Action} {seen : List Event}
    (h : machine.step s a = some (u, seen)) :
    orders seen =
        (match a with
          | .oms a => OmsEngine.orderedBy s.oms a
          | _ => []) ∧
      OmsEngine.popped (omsTrace seen) =
        (match a with
          | .oms a => OmsEngine.poppedBy s.oms a
          | _ => []) := by
  rcases step_oms h with ⟨a', ha', hstep⟩ | ⟨hnone, -, hquiet⟩
  · obtain ⟨hordered, hpopped⟩ := OmsEngine.step_history hstep
    unfold orders
    rw [hordered, hpopped]
    cases a with
    | oms a =>
      cases ha'
      exact ⟨rfl, rfl⟩
    | omsRecv n =>
      cases ha'
      exact ⟨rfl, rfl⟩
    | sim a => cases ha'
    | simRecv n => cases ha'
  · unfold orders
    rw [hquiet]
    cases a with
    | oms a => cases hnone
    | omsRecv n => cases hnone
    | sim a => exact ⟨rfl, rfl⟩
    | simRecv n => exact ⟨rfl, rfl⟩

theorem popExec_seen {s u : State} {seen : List Event}
    (h : machine.step s (.oms .popExec) = some (u, seen)) :
    seen = ((s.oms.engine.outbound.pop).2.map OmsEngine.Event.popped).toList.map .oms := by
  simp only [machine, omsMay, if_true, omsStep, OmsEngine.machine,
    Option.some.injEq, Prod.mk.injEq] at h
  exact h.2.symm

/-! ## The messages come out as they went in -/

theorem execUpdateOf_report {rep : WireExecReport} (magic : rep.hdr.magic = kProtocolMagic)
    (msgType : rep.hdr.msgType = kMsgExecReport) (now : Int64) :
    ∃ ex, OmsEngine.execUpdateOf rep.toBytes now = some ex ∧
      Answer.ofUpdate ex = .ofReport rep := by
  have hrep := WireExecReport.ofBytes_toBytes rep []
  rw [List.append_nil] at hrep
  refine ⟨⟨rep.clOrdId, rep.mdEventId, .ofByte rep.execType, rep.fillPx, rep.fillQty, now⟩, ?_, rfl⟩
  simp [OmsEngine.execUpdateOf, hrep, magic, msgType]

theorem newOrderOf_order {w : WireNewOrder} (magic : w.hdr.magic = kProtocolMagic)
    (msgType : w.hdr.msgType = kMsgNewOrder) : SimExServer.newOrderOf w.toBytes = some w := by
  have hw := WireNewOrder.ofBytes_toBytes w []
  rw [List.append_nil] at hw
  simp [SimExServer.newOrderOf, hw, magic, msgType]

/-- A reader with whole frames to come: it has one complete, or it waits. -/
theorem splitFrame_of_frames {unread later rest data : Bytes} {payloads : List Bytes}
    (hshort : ∀ payload ∈ payloads, payload.length < 2 ^ 32)
    (h : unread ++ later = payloads.flatMap packWithLength)
    (hsplit : splitFrame unread = some (data, rest)) :
    ∃ others, payloads = data :: others ∧ rest ++ later = others.flatMap packWithLength := by
  cases payloads with
  | nil =>
    obtain ⟨hnil, -⟩ := List.append_eq_nil_iff.mp h
    rw [hnil] at hsplit
    exact absurd hsplit (by rw [show splitFrame [] = none from lengthPrefixed.decode_nil]; simp)
  | cons payload others =>
    rw [List.flatMap_cons] at h
    rcases lengthPrefixed.decode_of_append (hshort payload (by simp)) h with
      ⟨left, hleft, hlater⟩ | ⟨hnone, -⟩
    · have heq : splitFrame unread = some (payload, left) := hleft
      rw [hsplit, Option.some.injEq, Prod.mk.injEq] at heq
      obtain ⟨rfl, rfl⟩ := heq
      exact ⟨others, rfl, hlater⟩
    · have heq : splitFrame unread = none := hnone
      rw [hsplit] at heq
      cases heq

/-! ## The invariant -/

/-- How far the orders and the reports have got. `todo` are the orders the
simulator has not read, `coming` the reports the OMS has not parsed. -/
structure Progress where
  filled : List Order := []
  acked : Option Order := none
  rest : List Order := []
  todo : List Order := []
  coming : List WireExecReport := []

namespace Progress

variable (p : Progress)

def sent : List Order := p.filled ++ (p.acked.toList ++ p.rest)

/-- The answers the OMS has not parsed. -/
def missing : List Answer := System.missing p.acked p.rest

/-- The answers the simulator has not built; `unfilled` is the order it is at. -/
def unbuilt (unfilled : Option WireNewOrder) : List Answer :=
  unfilled.toList.map .fill ++ p.todo.flatMap answers

end Progress

/-- The octets of the messages with these payloads. -/
def frames (payloads : List Bytes) : Bytes := payloads.flatMap packWithLength

/-- The octets and the reports are accounted for in every run; the map is as the
ledger says until the ids come round again. -/
structure Flow (p : Progress) (s : State) (trace : List Event) : Prop where
  issued : Issued s.oms.engine p.sent
  ledger : p.sent.length < 2 ^ 64 → Ledger s.oms.engine p.filled p.acked p.rest
  orders : orders trace = p.sent
  todo : p.todo <:+ p.sent
  valid : ∀ rep ∈ p.coming, rep.hdr.magic = kProtocolMagic ∧ rep.hdr.msgType = kMsgExecReport
  /-- One frame at most waits for the OMS to send it. -/
  short : (OmsEngine.unsent s.oms).length ≤ 4 + sizeofWireNewOrder
  toSim : SimExServer.unread s.sim ++ (s.toSim ++ OmsEngine.unsent s.oms) =
    frames (p.todo.map (·.2.toBytes))
  toOms : OmsEngine.unread s.oms ++ (s.toOms ++ SimExServer.unsent s.sim) =
    frames (p.coming.map (·.toBytes))
  due : p.coming.map .ofReport ++ p.unbuilt (SimExServer.unfilled s.sim) = p.missing
  reported : reported trace ++ p.unbuilt (SimExServer.unfilled s.sim) = p.sent.flatMap answers
  parsed : parsed trace ++ p.missing = p.sent.flatMap answers
  found : p.sent.length < 2 ^ 64 → ∀ ex entry, Event.oms (.parsed ex entry) ∈ trace →
    ∃ st, entry = some st ∧ st.mdEventId = ex.mdEventId

theorem orders_append (before after : List Event) :
    Loopback.orders (before ++ after) = Loopback.orders before ++ Loopback.orders after := by
  simp only [Loopback.orders, omsTrace, OmsEngine.ordered, List.filterMap_append]

theorem reported_append (before after : List Event) :
    Loopback.reported (before ++ after) = Loopback.reported before ++ Loopback.reported after := by
  simp only [Loopback.reported, simTrace, SimExServer.reported, List.filterMap_append,
    List.map_append]

theorem parsed_append (before after : List Event) :
    Loopback.parsed (before ++ after) = Loopback.parsed before ++ Loopback.parsed after := by
  simp only [Loopback.parsed, omsTrace, OmsEngine.parsed, List.filterMap_append, List.map_append]

/-- Steps of the simulator leave the history of the OMS alone, and the other way round. -/
theorem orders_sim (trace : List Event) (e : SimExServer.Event) :
    Loopback.orders (trace ++ [.sim e]) = Loopback.orders trace := by
  rw [orders_append]
  exact List.append_nil _

theorem parsed_sim (trace : List Event) (e : SimExServer.Event) :
    Loopback.parsed (trace ++ [.sim e]) = Loopback.parsed trace := by
  rw [parsed_append]
  exact List.append_nil _

theorem reported_oms (trace : List Event) (e : OmsEngine.Event) :
    Loopback.reported (trace ++ [.oms e]) = Loopback.reported trace := by
  rw [reported_append]
  exact List.append_nil _

theorem frames_concat (payloads : List Bytes) (payload : Bytes) :
    frames (payloads ++ [payload]) = frames payloads ++ packWithLength payload := by
  simp [frames]

theorem start_flow (data : Fin (2 ^ kRingDepthLog) → ExecUpdate) : Flow {} (start data) [] where
  issued := Issued.start _
  ledger := fun _ => Ledger.start _
  orders := rfl
  todo := List.suffix_refl _
  valid := by simp
  short := by simp [start, OmsEngine.start, OmsEngine.unsent]
  toSim := rfl
  toOms := rfl
  due := rfl
  reported := rfl
  parsed := rfl
  found := by simp

/-! ## What a step does to the progress -/

section Steps

variable {p : Progress} {s u : State} {trace seen : List Event}

/-- Octets move along, and nothing is sent, built or parsed. -/
theorem Flow.keep (h : Flow p s trace)
    (orders : u.oms.engine.orders = s.oms.engine.orders)
    (next : u.oms.engine.nextClordid = s.oms.engine.nextClordid)
    (short : (OmsEngine.unsent u.oms).length ≤ (OmsEngine.unsent s.oms).length)
    (toSim : SimExServer.unread u.sim ++ (u.toSim ++ OmsEngine.unsent u.oms) =
      SimExServer.unread s.sim ++ (s.toSim ++ OmsEngine.unsent s.oms))
    (toOms : OmsEngine.unread u.oms ++ (u.toOms ++ SimExServer.unsent u.sim) =
      OmsEngine.unread s.oms ++ (s.toOms ++ SimExServer.unsent s.sim))
    (unfilled : SimExServer.unfilled u.sim = SimExServer.unfilled s.sim)
    (noOrder : Loopback.orders seen = []) (noReport : Loopback.reported seen = [])
    (noParse : ∀ ex entry, Event.oms (.parsed ex entry) ∉ seen) : Flow p u (trace ++ seen) where
  issued := h.issued.congr next
  ledger := fun fits => (h.ledger fits).congr orders
  orders := by rw [orders_append, noOrder, List.append_nil, h.orders]
  todo := h.todo
  valid := h.valid
  short := short.trans h.short
  toSim := toSim.trans h.toSim
  toOms := toOms.trans h.toOms
  due := by rw [unfilled]; exact h.due
  reported := by rw [reported_append, noReport, List.append_nil, unfilled, h.reported]
  parsed := by
    have hnone : Loopback.parsed seen = [] := by
      rw [List.eq_nil_iff_forall_not_mem]
      intro ans hans
      obtain ⟨ex, hex, -⟩ := List.mem_map.mp hans
      obtain ⟨e, he, hsome⟩ := List.mem_filterMap.mp hex
      obtain ⟨e', he', homs⟩ := List.mem_filterMap.mp he
      cases e' with
      | sim e' => cases homs
      | oms e' =>
        cases homs
        cases e with
        | parsed ex' entry => exact noParse ex' entry he'
        | _ => cases hsome
    rw [parsed_append, hnone, List.append_nil, h.parsed]
  found := by
    intro fits ex entry hmem
    rcases List.mem_append.mp hmem with hold | hnew
    · exact h.found fits ex entry hold
    · exact absurd hnew (noParse ex entry)

/-- The OMS sends an order: one more for the simulator to read. -/
theorem Flow.register (h : Flow p s trace) {req : OrderRequest} {now : Int64}
    {gaps : UInt32 × UInt32} (engine : u.oms.engine = s.oms.engine.registerOrder req)
    (before : OmsEngine.unsent s.oms = []) (frame : OmsEngine.unsent u.oms =
      packWithLength (s.oms.engine.newOrder req now gaps).toBytes)
    (read : OmsEngine.unread u.oms = OmsEngine.unread s.oms) (sim : u.sim = s.sim)
    (toSim : u.toSim = s.toSim) (toOms : u.toOms = s.toOms) :
    ∃ p', Flow p' u
      (trace ++ [.oms (.ordered req (s.oms.engine.newOrder req now gaps))]) := by
  let o : Order := (req, s.oms.engine.newOrder req now gaps)
  have hsent : Progress.sent { p with rest := p.rest ++ [o], todo := p.todo ++ [o] } =
      p.sent ++ [o] := by
    simp only [Progress.sent, List.append_assoc]
  refine ⟨{ p with rest := p.rest ++ [o], todo := p.todo ++ [o] }, ?_⟩
  have hlen : (p.sent ++ [o]).length = p.sent.length + 1 := List.length_append
  refine ⟨?_, ?_, ?_, ?_, h.valid, ?_, ?_, ?_, ?_, ?_, ?_, ?_⟩
  · rw [hsent, engine]
    exact h.issued.register req now gaps
  · intro fits
    rw [hsent, hlen] at fits
    rw [engine]
    exact (h.ledger (by omega)).register req now gaps (h.issued.fresh fits)
  · rw [hsent, orders_append, h.orders]
    rfl
  · rw [hsent]
    obtain ⟨handled, hhandled⟩ := h.todo
    exact ⟨handled, by rw [← hhandled, List.append_assoc]⟩
  · rw [frame, packWithLength_length, WireNewOrder.toBytes_length]
  · have hframes := h.toSim
    rw [before, List.append_nil] at hframes
    rw [sim, toSim, frame, ← List.append_assoc, hframes, List.map_append, List.map_singleton,
      frames_concat]
  · rw [read, toOms, sim]
    exact h.toOms
  · rw [sim]
    have hdue := congrArg (· ++ answers o) h.due
    simpa [Progress.unbuilt, Progress.missing, System.missing] using hdue
  · have hreported := congrArg (· ++ answers o) h.reported
    rw [hsent, sim, reported_oms]
    simpa [Progress.unbuilt] using hreported
  · have hparsed := congrArg (· ++ answers o) h.parsed
    rw [hsent, parsed_append]
    simpa [Progress.missing, System.missing, Loopback.parsed, omsTrace, OmsEngine.parsed] using
      hparsed
  · intro fits ex entry hmem
    rw [hsent, hlen] at fits
    have hold : Event.oms (.parsed ex entry) ∈ trace := by simpa using hmem
    exact h.found (by omega) ex entry hold

theorem payload_short {payload : Bytes} (h : payload.length ≤ 1024) : payload.length < 2 ^ 32 := by
  omega

/-- The next frame the simulator completes is the next order. -/
theorem Flow.next_order (h : Flow p s trace) {data rest : Bytes}
    (split : splitFrame (SimExServer.unread s.sim) = some (data, rest)) :
    ∃ o others, p.todo = o :: others ∧ SimExServer.newOrderOf data = some o.2 ∧
      rest ++ (s.toSim ++ OmsEngine.unsent s.oms) = frames (others.map (·.2.toBytes)) := by
  have hshort : ∀ payload ∈ p.todo.map (·.2.toBytes), payload.length < 2 ^ 32 := by
    intro payload hmem
    obtain ⟨o, -, rfl⟩ := List.mem_map.mp hmem
    exact payload_short (by rw [WireNewOrder.toBytes_length]; decide)
  obtain ⟨payloads, hpayloads, hrest⟩ := splitFrame_of_frames hshort h.toSim split
  obtain ⟨o, others, htodo, rfl, rfl⟩ := List.map_eq_cons_iff.mp hpayloads
  have hcarries := h.issued.carried o (h.todo.subset (htodo ▸ List.mem_cons_self))
  exact ⟨o, others, htodo, newOrderOf_order hcarries.magic hcarries.msgType, hrest⟩

/-- The next frame the OMS completes is the next report. -/
theorem Flow.next_report (h : Flow p s trace) {data rest : Bytes}
    (split : splitFrame (OmsEngine.unread s.oms) = some (data, rest)) (now : Int64) :
    ∃ rep others ex, p.coming = rep :: others ∧ OmsEngine.execUpdateOf data now = some ex ∧
      Answer.ofUpdate ex = .ofReport rep ∧
      rest ++ (s.toOms ++ SimExServer.unsent s.sim) = frames (others.map (·.toBytes)) := by
  have hshort : ∀ payload ∈ p.coming.map (·.toBytes), payload.length < 2 ^ 32 := by
    intro payload hmem
    obtain ⟨rep, -, rfl⟩ := List.mem_map.mp hmem
    exact payload_short (by rw [WireExecReport.toBytes_length]; decide)
  obtain ⟨payloads, hpayloads, hrest⟩ := splitFrame_of_frames hshort h.toOms split
  obtain ⟨rep, others, hcoming, rfl, rfl⟩ := List.map_eq_cons_iff.mp hpayloads
  obtain ⟨hmagic, htype⟩ := h.valid rep (by rw [hcoming]; exact List.mem_cons_self)
  obtain ⟨ex, hex, hans⟩ := execUpdateOf_report hmagic htype now
  exact ⟨rep, others, ex, hcoming, hex, hans, hrest⟩

/-- The OMS parses a report: it is the next one missing, and its order is known. -/
theorem Flow.parse (h : Flow p s trace) {data rest : Bytes} {now : Int64} {ex : ExecUpdate}
    (split : splitFrame (OmsEngine.unread s.oms) = some (data, rest))
    (valid : OmsEngine.execUpdateOf data now = some ex)
    (engine : u.oms.engine = s.oms.engine.applyReport ex)
    (after : OmsEngine.unsent u.oms = []) (before : OmsEngine.unsent s.oms = [])
    (read : OmsEngine.unread u.oms = rest) (sim : u.sim = s.sim) (toSim : u.toSim = s.toSim)
    (toOms : u.toOms = s.toOms) :
    ∃ p', Flow p' u
      (trace ++ [.oms (.parsed ex (s.oms.engine.orders.lookup ex.clOrdId))]) := by
  obtain ⟨rep, others, ex', hcoming, hex', hans, hrest⟩ := h.next_report split now
  rw [valid, Option.some.injEq] at hex'
  subst hex'
  have hdue := h.due
  rw [hcoming, List.map_cons, List.cons_append, ← hans] at hdue
  have hvalid : ∀ rep ∈ others, rep.hdr.magic = kProtocolMagic ∧
      rep.hdr.msgType = kMsgExecReport := fun rep hrep =>
    h.valid rep (hcoming ▸ List.mem_cons_of_mem _ hrep)
  -- the answer belongs to the acknowledged order, else to the first one without any
  have hcases : ∃ (p' : Progress) (o : Order), p'.sent = p.sent ∧ p'.todo = p.todo ∧ p'.coming = others ∧
      p.missing = Answer.ofUpdate ex :: p'.missing ∧ o ∈ p.acked.toList ++ p.rest ∧
      ex.clOrdId = o.id ∧ ex.mdEventId = o.2.mdEventId ∧ (p.sent.length < 2 ^ 64 →
        Ledger (s.oms.engine.applyReport ex) p'.filled p'.acked p'.rest) := by
    obtain ⟨filled, acked, waiting, todo, coming⟩ := p
    cases acked with
    | some o =>
      have hfill : Answer.ofUpdate ex = .fill o.2 := by
        simp only [Progress.missing, System.missing, Option.toList_some, List.map_cons,
          List.cons_append] at hdue
        exact (List.cons.inj hdue).1
      refine ⟨⟨filled ++ [o], none, waiting, todo, others⟩, o, ?_, rfl, rfl, ?_, by simp,
        congrArg Answer.clOrdId hfill, congrArg Answer.mdEventId hfill, fun fits =>
          (h.ledger fits).close (h.issued.nodup fits) (h.issued.carried o (by simp [Progress.sent]))
            hfill⟩
      · simp [Progress.sent]
      · rw [hfill]
        rfl
    | none =>
      cases waiting with
      | nil => cases hdue
      | cons o waiting =>
        have hack : Answer.ofUpdate ex = .ack o.2 := by
          simp only [Progress.missing, System.missing, Option.toList_none, List.map_nil,
            List.nil_append, List.flatMap_cons, answers, List.cons_append] at hdue
          exact (List.cons.inj hdue).1
        refine ⟨⟨filled, some o, waiting, todo, others⟩, o, rfl, rfl, rfl, ?_, by simp,
          congrArg Answer.clOrdId hack, congrArg Answer.mdEventId hack, fun fits =>
            (h.ledger fits).acknowledge hack⟩
        rw [hack]
        rfl
  obtain ⟨p', o, hsent, htodo, hcoming', hmissing, ho, hid, hmd, hledger⟩ := hcases
  have hunbuilt : ∀ w, p'.unbuilt w = p.unbuilt w := by
    intro w
    rw [Progress.unbuilt, Progress.unbuilt, htodo]
  refine ⟨p', ?_⟩
  refine ⟨?_, ?_, ?_, ?_, ?_, ?_, ?_, ?_, ?_, ?_, ?_, ?_⟩
  · rw [hsent, engine]
    exact h.issued.congr rfl
  · rw [hsent, engine]
    exact hledger
  · rw [hsent, orders_append, h.orders]
    simp [Loopback.orders, omsTrace, OmsEngine.ordered]
  · rw [hsent, htodo]
    exact h.todo
  · rw [hcoming']
    exact hvalid
  · rw [after]
    exact Nat.zero_le _
  · rw [sim, toSim, after, ← before, htodo]
    exact h.toSim
  · rw [read, toOms, sim, hcoming']
    exact hrest
  · rw [hmissing] at hdue
    rw [hcoming', sim, hunbuilt]
    exact (List.cons.inj hdue).2
  · rw [hsent, sim, hunbuilt, reported_oms]
    exact h.reported
  · have hparsed := h.parsed
    rw [hmissing] at hparsed
    rw [hsent, parsed_append, ← hparsed]
    simp [Loopback.parsed, omsTrace, OmsEngine.parsed]
  · intro fits ex' entry hmem
    rw [hsent] at fits
    rcases List.mem_append.mp hmem with hold | hnew
    · exact h.found fits ex' entry hold
    · cases List.mem_singleton.mp hnew
      rw [hid, (h.ledger fits).opened o ho]
      refine ⟨_, rfl, ?_⟩
      rw [hmd]
      exact (h.issued.carried o (List.mem_append_right _ ho)).mdEventId.symm

/-- The simulator builds a report, which was the next one to build. -/
theorem Flow.report (h : Flow p s trace) {w : WireNewOrder} {rep : WireExecReport}
    {todo : List Order} (magic : rep.hdr.magic = kProtocolMagic)
    (msgType : rep.hdr.msgType = kMsgExecReport) (before : SimExServer.unsent s.sim = [])
    (sent : SimExServer.unsent u.sim = packWithLength rep.toBytes) (suffix : todo <:+ p.todo)
    (built : p.unbuilt (SimExServer.unfilled s.sim) =
      .ofReport rep :: Progress.unbuilt { p with todo } (SimExServer.unfilled u.sim))
    (read : SimExServer.unread u.sim ++ (u.toSim ++ OmsEngine.unsent u.oms) =
      frames (todo.map (·.2.toBytes)))
    (oms : u.oms = s.oms) (toOms : u.toOms = s.toOms) :
    ∃ p', Flow p' u (trace ++ [.sim (.reported w rep)]) := by
  refine ⟨{ p with todo, coming := p.coming ++ [rep] }, ?_⟩
  refine ⟨?_, ?_, ?_, suffix.trans h.todo, ?_, ?_, read, ?_, ?_, ?_, ?_, ?_⟩
  · rw [oms]
    exact h.issued
  · rw [oms]
    exact h.ledger
  · rw [orders_sim]
    exact h.orders
  · intro rep' hrep'
    rcases List.mem_append.mp hrep' with hold | hnew
    · exact h.valid rep' hold
    · rw [List.mem_singleton.mp hnew]
      exact ⟨magic, msgType⟩
  · rw [oms]
    exact h.short
  · have hframes := h.toOms
    rw [before, List.append_nil] at hframes
    rw [oms, toOms, sent, ← List.append_assoc, hframes, List.map_append, List.map_singleton,
      frames_concat]
  · have hdue := h.due
    rw [built] at hdue
    rw [List.map_append, List.map_singleton, List.append_assoc]
    exact hdue
  · have hreported := h.reported
    rw [built] at hreported
    rw [reported_append, List.append_assoc]
    exact hreported
  · rw [parsed_sim]
    exact h.parsed
  · intro fits ex entry hmem
    have hold : Event.oms (.parsed ex entry) ∈ trace := by simpa using hmem
    exact h.found fits ex entry hold

/-- The simulator takes an order and builds its acknowledgement. -/
theorem Flow.handle (h : Flow p s trace) {data rest : Bytes} {w : WireNewOrder}
    {rep : WireExecReport} (hrep : Answer.ofReport rep = .ack w)
    (magic : rep.hdr.magic = kProtocolMagic) (msgType : rep.hdr.msgType = kMsgExecReport)
    (split : splitFrame (SimExServer.unread s.sim) = some (data, rest))
    (valid : SimExServer.newOrderOf data = some w) (before : SimExServer.unsent s.sim = [])
    (sent : SimExServer.unsent u.sim = packWithLength rep.toBytes)
    (noFill : SimExServer.unfilled s.sim = none) (fill : SimExServer.unfilled u.sim = some w)
    (read : SimExServer.unread u.sim = rest) (oms : u.oms = s.oms) (toSim : u.toSim = s.toSim)
    (toOms : u.toOms = s.toOms) :
    ∃ p', Flow p' u (trace ++ [.sim (.reported w rep)]) := by
  obtain ⟨o, others, htodo, hw, hrest⟩ := h.next_order split
  rw [valid, Option.some.injEq] at hw
  subst hw
  have hsuffix : others <:+ p.todo := by
    rw [htodo]
    exact List.suffix_cons o others
  have hbuilt : p.unbuilt (SimExServer.unfilled s.sim) = .ofReport rep ::
      Progress.unbuilt { p with todo := others } (SimExServer.unfilled u.sim) := by
    rw [noFill, fill, hrep, Progress.unbuilt, htodo]
    rfl
  apply h.report magic msgType before sent hsuffix hbuilt _ oms toOms
  rw [read, toSim, oms]
  exact hrest

/-- The simulator builds the fill of the order it is at. -/
theorem Flow.fill (h : Flow p s trace) {w : WireNewOrder} {rep : WireExecReport}
    (hrep : Answer.ofReport rep = .fill w) (magic : rep.hdr.magic = kProtocolMagic)
    (msgType : rep.hdr.msgType = kMsgExecReport) (before : SimExServer.unsent s.sim = [])
    (sent : SimExServer.unsent u.sim = packWithLength rep.toBytes)
    (due : SimExServer.unfilled s.sim = some w) (done : SimExServer.unfilled u.sim = none)
    (read : SimExServer.unread u.sim = SimExServer.unread s.sim) (oms : u.oms = s.oms)
    (toSim : u.toSim = s.toSim) (toOms : u.toOms = s.toOms) :
    ∃ p', Flow p' u (trace ++ [.sim (.reported w rep)]) := by
  have hbuilt : p.unbuilt (SimExServer.unfilled s.sim) =
      .ofReport rep :: p.unbuilt (SimExServer.unfilled u.sim) := by
    rw [due, done, hrep]
    rfl
  apply h.report magic msgType before sent List.suffix_rfl hbuilt _ oms toOms
  rw [read, toSim, oms]
  exact h.toSim

/-- A step other than a `recv` is one of its own and leaves the stream. -/
theorem own_of_may {α : Type} {recv : Bytes → α} {a : α} {may : Prop} {stream stream' : Bytes}
    (hmay : (may ∧ stream' = stream) ∨ ∃ chunk, a = recv chunk ∧ stream = chunk ++ stream')
    (hno : ∀ chunk, a ≠ recv chunk) : may ∧ stream' = stream := by
  rcases hmay with hown | ⟨chunk, hchunk, -⟩
  · exact hown
  · exact absurd hchunk (hno chunk)

/-- A connection that does not fail makes no sender give up. -/
theorem sent_of_reliable {retries : SendResult → Bool} {r : SendResult} {before after taken : Bytes}
    (hmay : reliable retries r = true)
    (sent : before = taken ++ after ∨
      (retries r = false ∧ (∀ n, r ≠ .accepted n) ∧ taken = [] ∧ after = [])) :
    before = taken ++ after := by
  rcases sent with hall | ⟨hgive, hfail, -, -⟩
  · exact hall
  · cases r with
    | accepted n => exact absurd rfl (hfail n)
    | _ => exact absurd (hmay.symm.trans hgive) (by decide)

/-- What the OMS may do: a step of its own over a connection that does not fail,
or a `recv` that takes the front of the stream. -/
theorem omsStep_flow (h : Flow p s trace) {a : OmsEngine.Action} {toOms : Bytes}
    (hstep : omsStep s a toOms = some (u, seen))
    (hmay : (omsMay a = true ∧ toOms = s.toOms) ∨
      ∃ chunk, a = .recv chunk ∧ s.toOms = chunk ++ toOms) :
    ∃ p', Flow p' u (trace ++ seen) := by
  unfold omsStep at hstep
  cases homs : OmsEngine.machine.step s.oms a with
  | none =>
    rw [homs] at hstep
    cases hstep
  | some result =>
    obtain ⟨oms, now⟩ := result
    rw [homs] at hstep
    simp only [Option.some.injEq, Prod.mk.injEq] at hstep
    obtain ⟨rfl, rfl⟩ := hstep
    cases OmsEngine.step_effect homs with
    | order req now gaps engine before frame read =>
      exact h.register engine before frame read rfl (List.append_nil _) (own_of_may hmay (by simp)).2
    | send r taken engine sent read =>
      have hsent := sent_of_reliable (own_of_may hmay (by simp)).1 sent
      have htaken : OmsEngine.accepted [.accepted taken] = taken := List.append_nil taken
      refine ⟨p, h.keep (by rw [engine]) (by rw [engine]) ?_ ?_ ?_ rfl rfl rfl (by simp)⟩
      · rw [hsent, List.length_append]
        exact Nat.le_add_left _ _
      · rw [htaken, hsent, List.append_assoc]
      · rw [read, (own_of_may hmay (by simp)).2]
    | recv chunk engine before after read =>
      have hchunk : s.toOms = chunk ++ toOms := by
        rcases hmay with ⟨hmay, -⟩ | ⟨chunk', hchunk, heq⟩
        · cases hmay
        · cases hchunk
          exact heq
      refine ⟨p, h.keep (by rw [engine]) (by rw [engine]) ?_ ?_ ?_ rfl rfl rfl (by simp)⟩
      · rw [after, before]
      · rw [after, before]
        simp [OmsEngine.accepted]
      · rw [read, hchunk]
        simp only [List.append_assoc]
    | leaveLoop now noFrame engine before after read =>
      refine ⟨p, h.keep (by rw [engine]) (by rw [engine]) ?_ ?_ ?_ rfl rfl rfl (by simp)⟩
      · rw [after, before]
      · rw [after, before]
        simp [OmsEngine.accepted]
      · rw [read, (own_of_may hmay (by simp)).2]
    | skip now data rest split invalid engine before after read =>
      obtain ⟨rep, others, ex, -, hex, -⟩ := h.next_report split now
      rw [invalid] at hex
      cases hex
    | report now data rest ex split valid engine before after read =>
      exact h.parse split valid engine after before read rfl (List.append_nil _)
        (own_of_may hmay (by simp)).2
    | popExec engine sent read =>
      refine ⟨p, h.keep (by rw [engine]) (by rw [engine]) ?_ ?_ ?_ rfl ?_ ?_ ?_⟩
      · rw [sent]
      · rw [sent]
        cases s.oms.engine.outbound.pop.2 <;> simp [OmsEngine.accepted]
      · rw [read, (own_of_may hmay (by simp)).2]
      · cases s.oms.engine.outbound.pop.2 <;> rfl
      · cases s.oms.engine.outbound.pop.2 <;> rfl
      · cases s.oms.engine.outbound.pop.2 <;> simp

/-- What the simulator may do, likewise. -/
theorem simStep_flow (h : Flow p s trace) {a : SimExServer.Action} {toSim : Bytes}
    (hstep : simStep s a toSim = some (u, seen))
    (hmay : (simMay a = true ∧ toSim = s.toSim) ∨
      ∃ chunk, a = .recv chunk ∧ s.toSim = chunk ++ toSim) :
    ∃ p', Flow p' u (trace ++ seen) := by
  unfold simStep at hstep
  cases hsim : SimExServer.machine.step s.sim a with
  | none =>
    rw [hsim] at hstep
    cases hstep
  | some result =>
    obtain ⟨sim, now⟩ := result
    rw [hsim] at hstep
    simp only [Option.some.injEq, Prod.mk.injEq] at hstep
    obtain ⟨rfl, rfl⟩ := hstep
    cases SimExServer.step_effect hsim with
    | recv chunk idle sent fill read =>
      have hchunk : s.toSim = chunk ++ toSim := by
        rcases hmay with ⟨hmay, -⟩ | ⟨chunk', hchunk, heq⟩
        · cases hmay
        · cases hchunk
          exact heq
      refine ⟨p, h.keep rfl rfl le_rfl ?_ ?_ ?_ rfl rfl (by simp)⟩
      · rw [read, hchunk]
        simp only [List.append_assoc]
      · rw [sent]
        simp [SimExServer.accepted, SimExServer.unsent, idle]
      · rw [fill]
        simp [SimExServer.unfilled, idle]
    | leaveLoop recvTs sendTs gaps noFrame idle before noFill read =>
      refine ⟨p, h.keep rfl rfl le_rfl ?_ ?_ ?_ rfl rfl (by simp)⟩
      · rw [read, (own_of_may hmay (by simp)).2]
      · rw [before]
        simp [SimExServer.accepted, SimExServer.unsent, idle]
      · rw [noFill]
        simp [SimExServer.unfilled, idle]
    | skip recvTs sendTs gaps data rest split invalid before sent noFill fill read =>
      obtain ⟨o, others, -, hw, -⟩ := h.next_order split
      rw [invalid] at hw
      cases hw
    | ack recvTs sendTs gaps data rest w split valid before sent noFill fill read =>
      exact h.handle rfl rfl rfl split valid before sent noFill fill read rfl
        (own_of_may hmay (by simp)).2 (List.append_nil _)
    | fill sendTs gaps w recvTs before sent due done read =>
      exact h.fill rfl rfl rfl before sent due done read rfl (own_of_may hmay (by simp)).2
        (List.append_nil _)
    | send r taken sent fill read =>
      have hsent := sent_of_reliable (own_of_may hmay (by simp)).1 sent
      have htaken : SimExServer.accepted [.accepted taken] = taken := List.append_nil taken
      refine ⟨p, h.keep rfl rfl le_rfl ?_ ?_ fill rfl rfl (by simp)⟩
      · rw [read, (own_of_may hmay (by simp)).2]
      · rw [htaken, hsent, List.append_assoc]

theorem step_flow (h : Flow p s trace) {a : Action} (hstep : machine.step s a = some (u, seen)) :
    ∃ p', Flow p' u (trace ++ seen) := by
  cases a with
  | oms a =>
    simp only [machine] at hstep
    split at hstep
    · next hmay => exact omsStep_flow h hstep (Or.inl ⟨hmay, rfl⟩)
    · cases hstep
  | omsRecv n =>
    simp only [machine] at hstep
    split at hstep
    · exact omsStep_flow h hstep (Or.inr ⟨_, rfl, (List.take_append_drop n _).symm⟩)
    · cases hstep
  | sim a =>
    simp only [machine] at hstep
    split at hstep
    · next hmay => exact simStep_flow h hstep (Or.inl ⟨hmay, rfl⟩)
    · cases hstep
  | simRecv n =>
    simp only [machine] at hstep
    split at hstep
    · exact simStep_flow h hstep (Or.inr ⟨_, rfl, (List.take_append_drop n _).symm⟩)
    · cases hstep

end Steps

/-- Every run keeps the octets, the reports and the ledger together. -/
theorem run_flow {data : Fin (2 ^ kRingDepthLog) → ExecUpdate} {actions : List Action} {s : State}
    {trace : List Event} (h : machine.Run (start data) actions s trace) :
    ∃ p, Flow p s trace :=
  h.invariant (I := fun s trace => ∃ p, Flow p s trace) ⟨{}, start_flow data⟩
    fun ⟨_, hp⟩ hstep => step_flow hp hstep

end Loopback

end CppCodes.System
