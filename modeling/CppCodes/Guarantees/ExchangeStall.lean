import CppCodes.Guarantees.OrderProtocol
import CppCodes.System.BoundedLoopback

/-!
# When the exchange comes to a stop

The OMS does not read while it sends an order, and the simulator does not read while it sends a
report. With bounded streams both can wait for the other one to read, for ever. How many orders
that takes depends on what the streams hold; with fewer, every order gets its answers.
-/

set_option autoImplicit false

namespace CppCodes.Guarantees.ExchangeStall

open CppCodes.Library
open CppCodes.Source.HftTest
open CppCodes.System CppCodes.System.Loopback CppCodes.System.Bounded
open CppCodes.Guarantees.OrderProtocol

variable {b : Buffers} {s u : State} {a : Action} {trace seen : List Event} {p : Progress}

/-! ## Octets and messages -/

theorem frames_length_reports (coming : List WireExecReport) :
    (frames (coming.map (·.toBytes))).length = reportFrame * coming.length := by
  induction coming with
  | nil => rfl
  | cons rep coming ih =>
    have hcons : frames ((rep :: coming).map (·.toBytes)) =
        packWithLength rep.toBytes ++ frames (coming.map (·.toBytes)) := rfl
    rw [hcons, List.length_append, ih, packWithLength_length, WireExecReport.toBytes_length,
      List.length_cons, Nat.mul_succ]
    exact Nat.add_comm _ _

theorem orderFrame_eq : orderFrame = 60 := by decide

theorem reportFrame_eq : reportFrame = 76 := by decide

theorem answers_length (orders : List Order) : (orders.flatMap answers).length = 2 * orders.length := by
  induction orders with
  | nil => rfl
  | cons o orders ih =>
    rw [List.flatMap_cons, List.length_append, ih]
    simp only [answers, List.length_cons, List.length_nil]
    omega

/-- How many octets and messages are where. -/
structure Counts (p : Progress) (s : State) (trace : List Event) : Prop where
  orders : (orders trace).length = p.sent.length
  todo : (SimExServer.unread s.sim).length + s.toSim.length + (OmsEngine.unsent s.oms).length =
    60 * p.todo.length
  coming : (OmsEngine.unread s.oms).length + s.toOms.length + (SimExServer.unsent s.sim).length =
    76 * p.coming.length
  reported : (reported trace).length + (SimExServer.unfilled s.sim).toList.length +
    2 * p.todo.length = 2 * p.sent.length
  parsed : (parsed trace).length + p.coming.length +
    (SimExServer.unfilled s.sim).toList.length + 2 * p.todo.length = 2 * p.sent.length

theorem counts_of_flow (h : Flow p s trace) : Counts p s trace := by
  have hunbuilt : (p.unbuilt (SimExServer.unfilled s.sim)).length =
      (SimExServer.unfilled s.sim).toList.length + 2 * p.todo.length := by
    rw [Progress.unbuilt, List.length_append, List.length_map, answers_length]
  have htodo := congrArg List.length h.toSim
  have hcoming := congrArg List.length h.toOms
  have hreported := congrArg List.length h.reported
  have hparsed := congrArg List.length h.parsed
  rw [← h.due] at hparsed
  rw [frames_length_orders, show 4 + sizeofWireNewOrder = 60 by decide] at htodo
  rw [frames_length_reports, reportFrame_eq] at hcoming
  simp only [List.length_append, answers_length, List.length_map, hunbuilt] at htodo hcoming hreported hparsed
  refine ⟨by rw [h.orders], ?_, ?_, ?_, ?_⟩ <;> omega

/-- The simulator has not read a whole frame when it waits. -/
theorem unread_lt (h : Flow p s trace) (hnone : splitFrame (SimExServer.unread s.sim) = none) :
    (SimExServer.unread s.sim).length < 60 := by
  cases htodo : p.todo with
  | nil =>
    have hcount := (counts_of_flow h).todo
    rw [htodo, List.length_nil] at hcount
    omega
  | cons o others =>
    have hframes := h.toSim
    have hshort : o.2.toBytes.length < 2 ^ 32 :=
      payload_short (by rw [WireNewOrder.toBytes_length]; decide)
    rw [htodo, frames, List.map_cons, List.flatMap_cons] at hframes
    rcases lengthPrefixed.decode_of_append hshort hframes with ⟨left, hleft, -⟩ | ⟨-, hlt⟩
    · have hsome : splitFrame (SimExServer.unread s.sim) = some (o.2.toBytes, left) := hleft
      rw [hnone] at hsome
      cases hsome
    · have hlen : (packWithLength o.2.toBytes).length = 60 := by
        rw [packWithLength_length, WireNewOrder.toBytes_length]
        decide
      exact hlt.trans_eq hlen

theorem unread_of_frame (h : Flow p s trace) {data rest : Bytes}
    (split : splitFrame (SimExServer.unread s.sim) = some (data, rest)) :
    (SimExServer.unread s.sim).length = 60 + rest.length := by
  obtain ⟨o, others, htodo, -, hrest⟩ := h.next_order split
  have hbefore := (counts_of_flow h).todo
  have hafter := congrArg List.length hrest
  rw [frames_length_orders, show 4 + sizeofWireNewOrder = 60 by decide] at hafter
  rw [htodo, List.length_cons] at hbefore
  simp only [List.length_append] at hafter
  omega

/-! ## What holds in all runs -/

structure Within (b : Buffers) (s : State) : Prop where
  toSim : s.toSim.length ≤ b.toSim
  toOms : s.toOms.length ≤ b.toOms

theorem Within.step (h : Within b s) (hstep : (machine b).step s a = some (u, seen)) : Within b u := by
  obtain ⟨hroom, hstep⟩ := step_iff.mp hstep
  cases step_taken hstep with
  | oms x v heard may step after =>
    subst after
    refine ⟨?_, h.toOms⟩
    rcases oms_accepted_cases step with hnone | ⟨n, rfl, hlen⟩
    · simpa [hnone] using h.toSim
    · simpa [hasRoom, hlen] using hroom
  | omsRecv n v heard some_octets step after =>
    subst after
    obtain ⟨rfl, -, -, -⟩ := oms_recv_cost step
    refine ⟨?_, ?_⟩
    · simpa [OmsEngine.accepted] using h.toSim
    · have htoOms := h.toOms
      simp only [List.length_drop]
      omega
  | sim x w heard may step after =>
    subst after
    refine ⟨h.toSim, ?_⟩
    rcases sim_accepted_cases step with hnone | ⟨n, rfl, hlen⟩
    · simpa [hnone] using h.toOms
    · simpa [hasRoom, hlen] using hroom
  | simRecv n w heard some_octets step after =>
    subst after
    obtain ⟨rfl, -⟩ := sim_recv_cost step
    refine ⟨?_, ?_⟩
    · have htoSim := h.toSim
      simp only [List.length_drop]
      omega
    · simpa [SimExServer.accepted] using h.toOms

/-- What the steps keep. -/
structure Inv (b : Buffers) (s : State) (trace : List Event) : Prop where
  flow : ∃ p, Flow p s trace
  stands : Stands s
  within : Within b s

theorem Inv.step (h : Inv b s trace) (hstep : (machine b).step s a = some (u, seen)) :
    Inv b u (trace ++ seen) := by
  obtain ⟨p, hp⟩ := h.flow
  have hloopback := (step_iff.mp hstep).2
  exact ⟨step_flow hp hloopback, h.stands.step hloopback, h.within.step hstep⟩

theorem inv_start (data : Fin (2 ^ kRingDepthLog) → ExecUpdate) : Inv b (start data) [] where
  flow := ⟨{}, start_flow data⟩
  stands := ⟨lengthPrefixed.decode_nil, lengthPrefixed.decode_nil⟩
  within := ⟨Nat.zero_le _, Nat.zero_le _⟩

theorem Inv.run (h : Inv b s trace) {actions : List Action} {later : List Event}
    (run : (machine b).Run s actions u later) : Inv b u (trace ++ later) := by
  induction actions generalizing s trace later with
  | nil =>
    obtain ⟨rfl, rfl⟩ := Machine.run_nil_iff.mp run
    rwa [List.append_nil]
  | cons a rest ih =>
    obtain ⟨t, seen, after, hstep, hrest, rfl⟩ := Machine.run_cons_iff.mp run
    rw [← List.append_assoc]
    exact ih (h.step hstep) hrest

/-! ## A stalled exchange -/

/-- The octets stay where they are, and nothing is ordered, built or parsed. -/
structure Stuck (b : Buffers) (s u : State) (seen : List Event) : Prop where
  stalled : Stalled b u
  toSim : OmsEngine.unsent u.oms = OmsEngine.unsent s.oms ∧ u.toSim = s.toSim ∧
    SimExServer.unread u.sim = SimExServer.unread s.sim
  toOms : SimExServer.unsent u.sim = SimExServer.unsent s.sim ∧ u.toOms = s.toOms ∧
    OmsEngine.unread u.oms = OmsEngine.unread s.oms
  orders : orders seen = []
  reported : reported seen = []
  parsed : parsed seen = []

theorem Stuck.refl (h : Stalled b s) : Stuck b s s [] :=
  ⟨h, ⟨rfl, rfl, rfl⟩, ⟨rfl, rfl, rfl⟩, rfl, rfl, rfl⟩

theorem Stuck.trans {t : State} {later : List Event} (h : Stuck b s t seen) (hnext : Stuck b t u later) :
    Stuck b s u (seen ++ later) := by
  obtain ⟨-, ⟨h1, h2, h3⟩, ⟨h4, h5, h6⟩, horders, hreported, hparsed⟩ := h
  obtain ⟨hstalled, ⟨g1, g2, g3⟩, ⟨g4, g5, g6⟩, gorders, greported, gparsed⟩ := hnext
  refine ⟨hstalled, ⟨g1.trans h1, g2.trans h2, g3.trans h3⟩, ⟨g4.trans h4, g5.trans h5, g6.trans h6⟩,
    ?_, ?_, ?_⟩
  · rw [orders_append, horders, gorders, List.append_nil]
  · rw [reported_append, hreported, greported, List.append_nil]
  · rw [parsed_append, hparsed, gparsed, List.append_nil]

theorem stuck_step (h : Stalled b s) (hstep : (machine b).step s a = some (u, seen)) :
    Stuck b s u seen := by
  obtain ⟨hroom, hstep⟩ := step_iff.mp hstep
  cases step_taken hstep with
  | oms x v heard may step after =>
    subst after
    have hnothing : OmsEngine.accepted heard = [] := by
      rcases oms_accepted_cases step with hnone | ⟨n, rfl, hlen⟩
      · exact hnone
      · have hfits : s.toSim.length + n ≤ b.toSim := by simpa [hasRoom] using hroom
        have hn := (oms_send_cost step).1
        have hfull := h.toSim
        omega
    cases OmsEngine.step_effect step with
    | send r taken engine left read =>
      have htaken : taken = [] := by simpa [OmsEngine.accepted] using hnothing
      have hunsent : OmsEngine.unsent v = OmsEngine.unsent s.oms := by
        have hleft := sent_of_reliable may left
        rw [htaken] at hleft
        exact hleft.symm
      refine ⟨⟨?_, h.sim, ?_, h.toOms⟩, ⟨hunsent, ?_, rfl⟩, ⟨rfl, rfl, read⟩, rfl, rfl, rfl⟩
      · rw [hunsent]
        exact h.oms
      · simpa [hnothing] using h.toSim
      · simp [hnothing]
    | popExec engine sent read =>
      refine ⟨⟨?_, h.sim, ?_, h.toOms⟩, ⟨sent, ?_, rfl⟩, ⟨rfl, rfl, read⟩, ?_, ?_, ?_⟩
      · rw [sent]
        exact h.oms
      · simpa [hnothing] using h.toSim
      · simp [hnothing]
      all_goals cases (s.oms.engine.outbound.pop).2 <;> rfl
    | order req now gaps engine before frame read => exact absurd before h.oms
    | recv chunk engine before => exact absurd before h.oms
    | leaveLoop now noFrame engine before => exact absurd before h.oms
    | skip now data rest split invalid engine before => exact absurd before h.oms
    | report now data rest ex split valid engine before => exact absurd before h.oms
  | omsRecv n v heard some_octets step after =>
    exact absurd (oms_recv_cost step).2.1 h.oms
  | sim x w heard may step after =>
    subst after
    have hnothing : SimExServer.accepted heard = [] := by
      rcases sim_accepted_cases step with hnone | ⟨n, rfl, hlen⟩
      · exact hnone
      · have hfits : s.toOms.length + n ≤ b.toOms := by simpa [hasRoom] using hroom
        have hn := (sim_send_cost step).1
        have hfull := h.toOms
        omega
    cases SimExServer.step_effect step with
    | send r taken left fill read =>
      have htaken : taken = [] := by simpa [SimExServer.accepted] using hnothing
      have hunsent : SimExServer.unsent w = SimExServer.unsent s.sim := by
        have hleft := sent_of_reliable may left
        rw [htaken] at hleft
        exact hleft.symm
      refine ⟨⟨h.oms, ?_, h.toSim, ?_⟩, ⟨rfl, rfl, read⟩, ⟨hunsent, ?_, rfl⟩, rfl, rfl, rfl⟩
      · rw [hunsent]
        exact h.sim
      · simpa [hnothing] using h.toOms
      · simp [hnothing]
    | recv chunk idle => exact absurd (by rw [SimExServer.unsent, idle]) h.sim
    | leaveLoop recvTs sendTs gaps noFrame idle before => exact absurd before h.sim
    | skip recvTs sendTs gaps data rest split invalid before => exact absurd before h.sim
    | ack recvTs sendTs gaps data rest w split valid before => exact absurd before h.sim
    | fill sendTs gaps w recvTs before => exact absurd before h.sim
  | simRecv n w heard some_octets step after =>
    cases SimExServer.step_effect step with
    | recv chunk idle => exact absurd (by rw [SimExServer.unsent, idle]) h.sim

theorem stuck_run (h : Stalled b s) {actions : List Action} (run : (machine b).Run s actions u seen) :
    Stuck b s u seen := by
  induction actions generalizing s seen with
  | nil =>
    obtain ⟨rfl, rfl⟩ := Machine.run_nil_iff.mp run
    exact .refl h
  | cons a rest ih =>
    obtain ⟨t, now, later, hstep, hrest, rfl⟩ := Machine.run_cons_iff.mp run
    have hnow := stuck_step h hstep
    exact hnow.trans (ih hnow.stalled hrest)

/-! ## Who can go on -/

/-- Steps with which the simulator takes one octet at a time, and the OMS none. -/
def sparing : Action → Bool
  | .omsRecv _ => false
  | .simRecv n => n = 1
  | _ => true

/-- A step that takes octets further, among those that are sparing. -/
def Goes (b : Buffers) (s : State) : Prop :=
  ∃ a u seen, moves a = true ∧ sparing a = true ∧ (machine b).step s a = some (u, seen)

theorem goes_sim {x : SimExServer.Action} (hmoves : moves (.sim x) = true)
    (hroom : hasRoom b s (.sim x) = true) (may : simMay x = true)
    (h : ∃ next, SimExServer.machine.step s.sim x = some next) : Goes b s := by
  obtain ⟨⟨w, heard⟩, h⟩ := h
  have hstep : Loopback.machine.step s (.sim x) = some
      ({ s with sim := w, toOms := s.toOms ++ SimExServer.accepted heard }, heard.map .sim) := by
    simp only [Loopback.machine, may, if_true, simStep, h]
  exact ⟨.sim x, _, _, hmoves, rfl, step_iff.mpr ⟨hroom, hstep⟩⟩

theorem goes_oms {x : OmsEngine.Action} (hmoves : moves (.oms x) = true)
    (hroom : hasRoom b s (.oms x) = true) (may : omsMay x = true)
    (h : ∃ next, OmsEngine.machine.step s.oms x = some next) : Goes b s := by
  obtain ⟨⟨v, heard⟩, h⟩ := h
  have hstep : Loopback.machine.step s (.oms x) = some
      ({ s with oms := v, toSim := s.toSim ++ OmsEngine.accepted heard }, heard.map .oms) := by
    simp only [Loopback.machine, may, if_true, omsStep, h]
  exact ⟨.oms x, _, _, hmoves, rfl, step_iff.mpr ⟨hroom, hstep⟩⟩

theorem simRecv_one (h : s.sim.pc = .receiving) (hsome : s.toSim ≠ []) :
    ∃ next, Loopback.machine.step s (.simRecv 1) = some next := by
  have hlen : 0 < 1 ∧ 1 ≤ s.toSim.length := ⟨Nat.one_pos, List.length_pos_iff.mpr hsome⟩
  simp [Loopback.machine, simStep, SimExServer.machine, h, hlen]

theorem omsRecv_one (h : s.oms.pc = .idle) (hsome : s.toOms ≠ []) :
    ∃ next, Loopback.machine.step s (.omsRecv 1) = some next := by
  have hlen : 0 < 1 ∧ 1 ≤ s.toOms.length := ⟨Nat.one_pos, List.length_pos_iff.mpr hsome⟩
  simp [Loopback.machine, omsStep, OmsEngine.machine, h, hlen]

/-- `::send` takes an octet of what is left. -/
theorem sendStep_one {retried : SendResult → Bool} {frame : Bytes} {sent : Nat}
    (h : sent < frame.length) : ∃ next taken, sendStep retried frame sent (.accepted 1) = some (next, taken) := by
  have hone : 0 < 1 ∧ 1 ≤ frame.length - sent := ⟨Nat.one_pos, by omega⟩
  exact ⟨_, _, by rw [sendStep, if_pos hone]⟩

theorem sim_progress (stands : Stands s) (within : Within b s) :
    Goes b s ∨ (s.sim.pc = .receiving ∧ s.toSim = []) ∨
      (SimExServer.unsent s.sim ≠ [] ∧ s.toOms.length = b.toOms) := by
  have hsim := stands.sim
  obtain ⟨oms, ⟨buf, pc⟩, toSim, toOms⟩ := s
  cases pc with
  | receiving =>
    cases toSim with
    | nil => exact .inr (.inl ⟨rfl, rfl⟩)
    | cons octet rest =>
      obtain ⟨⟨u, seen⟩, hstep⟩ := @simRecv_one ⟨oms, ⟨buf, .receiving⟩, octet :: rest, toOms⟩ rfl (by simp)
      exact .inl ⟨.simRecv 1, u, seen, rfl, rfl, step_iff.mpr ⟨rfl, hstep⟩⟩
  | parsing cursor =>
    refine .inl (@goes_sim _ _ (.parse 0 0 (0, 0)) rfl rfl rfl ?_)
    simp only [SimExServer.machine, unpackFrame_drop]
    cases splitFrame (buf.drop cursor.offset) with
    | none => exact ⟨_, rfl⟩
    | some split =>
      simp only
      cases SimExServer.newOrderOf split.1 with
      | none => exact ⟨_, rfl⟩
      | some w => exact ⟨_, rfl⟩
  | acked cursor w recvTs => exact .inl (@goes_sim _ _ (.fill 0 (0, 0)) rfl rfl rfl ⟨_, rfl⟩)
  | sendingAck cursor w recvTs frame sent =>
    have hlt : sent < frame.length := hsim
    by_cases hroom : toOms.length + 1 ≤ b.toOms
    · refine .inl (@goes_sim _ _ (.send (.accepted 1)) rfl (decide_eq_true hroom) rfl ?_)
      obtain ⟨next, taken, hsend⟩ := @sendStep_one SimExServer.sendReportRetries _ _ hlt
      simp only [SimExServer.machine, hsend]
      cases next with
      | again sent' => exact ⟨_, rfl⟩
      | done => exact ⟨_, rfl⟩
    · have htoOms : toOms.length ≤ b.toOms := within.toOms
      refine .inr (.inr ⟨?_, by simp only; omega⟩)
      simp only [SimExServer.unsent, ne_eq, List.drop_eq_nil_iff]
      omega
  | sendingFill cursor frame sent =>
    have hlt : sent < frame.length := hsim
    by_cases hroom : toOms.length + 1 ≤ b.toOms
    · refine .inl (@goes_sim _ _ (.send (.accepted 1)) rfl (decide_eq_true hroom) rfl ?_)
      obtain ⟨next, taken, hsend⟩ := @sendStep_one SimExServer.sendReportRetries _ _ hlt
      simp only [SimExServer.machine, hsend]
      cases next with
      | again sent' => exact ⟨_, rfl⟩
      | done => exact ⟨_, rfl⟩
    · have htoOms : toOms.length ≤ b.toOms := within.toOms
      refine .inr (.inr ⟨?_, by simp only; omega⟩)
      simp only [SimExServer.unsent, ne_eq, List.drop_eq_nil_iff]
      omega

theorem oms_progress (stands : Stands s) (within : Within b s) :
    Goes b s ∨ s.oms.pc = .idle ∨ (OmsEngine.unsent s.oms ≠ [] ∧ s.toSim.length = b.toSim) := by
  have homs := stands.oms
  obtain ⟨⟨engine, rxBuffer, pc⟩, sim, toSim, toOms⟩ := s
  cases pc with
  | idle => exact .inr (.inl rfl)
  | parsing offset payload =>
    refine .inl (@goes_oms _ _ (.parse 0) rfl rfl rfl ?_)
    simp only [OmsEngine.machine, unpackFrame_drop]
    cases splitFrame (rxBuffer.drop offset) with
    | none => exact ⟨_, rfl⟩
    | some split =>
      simp only
      cases OmsEngine.execUpdateOf split.1 0 with
      | none => exact ⟨_, rfl⟩
      | some ex => exact ⟨_, rfl⟩
  | sending frame sent =>
    have hlt : sent < frame.length := homs.1
    by_cases hroom : toSim.length + 1 ≤ b.toSim
    · refine .inl (@goes_oms _ _ (.send (.accepted 1)) rfl (decide_eq_true hroom) rfl ?_)
      obtain ⟨next, taken, hsend⟩ := @sendStep_one OmsEngine.sendAllRetries _ _ hlt
      simp only [OmsEngine.machine, hsend]
      cases next with
      | again sent' => exact ⟨_, rfl⟩
      | done => exact ⟨_, rfl⟩
    · have htoSim : toSim.length ≤ b.toSim := within.toSim
      refine .inr (.inr ⟨?_, by simp only; omega⟩)
      simp only [OmsEngine.unsent, ne_eq, List.drop_eq_nil_iff]
      omega

/-- Both programs wait for octets, and none are on their way. -/
structure Idle (s : State) : Prop where
  oms : s.oms.pc = .idle
  sim : s.sim.pc = .receiving
  toSim : s.toSim = []
  toOms : s.toOms = []

theorem progress (stands : Stands s) (within : Within b s) :
    (∃ a u seen, moves a = true ∧ (machine b).step s a = some (u, seen)) ∨ Stalled b s ∨ Idle s := by
  rcases oms_progress stands within with ⟨a, u, seen, hmoves, -, hstep⟩ | hidle | ⟨hunsent, hfull⟩
  · exact .inl ⟨a, u, seen, hmoves, hstep⟩
  · cases htoOms : s.toOms with
    | cons octet rest =>
      obtain ⟨⟨u, seen⟩, hstep⟩ := omsRecv_one hidle (by simp [htoOms])
      exact .inl ⟨.omsRecv 1, u, seen, rfl, step_iff.mpr ⟨rfl, hstep⟩⟩
    | nil =>
      rcases sim_progress stands within with ⟨a, u, seen, hmoves, -, hstep⟩ | ⟨hreceiving, htoSim⟩ | ⟨-, hfull⟩
      · exact .inl ⟨a, u, seen, hmoves, hstep⟩
      · exact .inr (.inr ⟨hidle, hreceiving, htoSim, htoOms⟩)
      · have hpos := b.toOms_pos
        rw [htoOms, List.length_nil] at hfull
        omega
  · rcases sim_progress stands within with ⟨a, u, seen, hmoves, -, hstep⟩ | ⟨-, htoSim⟩ | ⟨hreport, htoOms⟩
    · exact .inl ⟨a, u, seen, hmoves, hstep⟩
    · have hpos := b.toSim_pos
      rw [htoSim, List.length_nil] at hfull
      omega
    · exact .inr (.inl ⟨hunsent, hreport, hfull, htoOms⟩)

/-! ## Without a stall -/

theorem unheard_lt (h : Flow p s trace) (hnone : splitFrame (OmsEngine.unread s.oms) = none) :
    (OmsEngine.unread s.oms).length < 76 := by
  cases hcoming : p.coming with
  | nil =>
    have hcount := (counts_of_flow h).coming
    rw [hcoming, List.length_nil] at hcount
    omega
  | cons rep others =>
    have hframes := h.toOms
    have hshort : rep.toBytes.length < 2 ^ 32 :=
      payload_short (by rw [WireExecReport.toBytes_length]; decide)
    rw [hcoming, frames, List.map_cons, List.flatMap_cons] at hframes
    rcases lengthPrefixed.decode_of_append hshort hframes with ⟨left, hleft, -⟩ | ⟨-, hlt⟩
    · have hsome : splitFrame (OmsEngine.unread s.oms) = some (rep.toBytes, left) := hleft
      rw [hnone] at hsome
      cases hsome
    · exact hlt.trans_eq (report_length rep)

/-- When both programs wait, everything ordered has been answered. -/
theorem answered (h : Flow p s trace) (stands : Stands s) (idle : Idle s) :
    parsed trace = (orders trace).flatMap answers := by
  have hcounts := counts_of_flow h
  have hsim : splitFrame (SimExServer.unread s.sim) = none := by
    have hstands := stands.sim
    rw [SimStands, idle.sim] at hstands
    rw [SimExServer.unread, idle.sim]
    exact hstands
  have homs : splitFrame (OmsEngine.unread s.oms) = none := by
    have hstands := stands.oms
    rw [OmsStands, idle.oms] at hstands
    rw [OmsEngine.unread, idle.oms]
    exact hstands
  have htodo : p.todo = [] := by
    have hlt := unread_lt h hsim
    have hcount := hcounts.todo
    rw [OmsEngine.unsent, idle.oms, idle.toSim, List.length_nil] at hcount
    exact List.length_eq_zero_iff.mp (by omega)
  have hcoming : p.coming = [] := by
    have hlt := unheard_lt h homs
    have hcount := hcounts.coming
    rw [SimExServer.unsent, idle.sim, idle.toOms, List.length_nil] at hcount
    exact List.length_eq_zero_iff.mp (by omega)
  have hmissing : p.missing = [] := by
    have hdue := h.due
    rw [hcoming, SimExServer.unfilled, idle.sim, Progress.unbuilt, htodo] at hdue
    exact hdue.symm
  have hparsed := h.parsed
  rwa [hmissing, List.append_nil, ← h.orders] at hparsed

theorem orders_of_moves (hmoves : moves a = true) (h : Loopback.machine.step s a = some (u, seen)) :
    orders seen = [] := by
  rw [(step_history h).1]
  cases a with
  | oms x =>
    cases x with
    | order req now gaps => cases hmoves
    | _ => rfl
  | _ => rfl

theorem orders_of_run {actions : List Action} (hmoves : ∀ a ∈ actions, moves a = true)
    (run : (machine b).Run s actions u seen) : orders seen = [] := by
  induction actions generalizing s seen with
  | nil =>
    obtain ⟨-, rfl⟩ := Machine.run_nil_iff.mp run
    rfl
  | cons a rest ih =>
    obtain ⟨t, now, later, hstep, hrest, rfl⟩ := Machine.run_cons_iff.mp run
    rw [List.forall_mem_cons] at hmoves
    rw [orders_append, orders_of_moves hmoves.1 (step_iff.mp hstep).2, ih hmoves.2 hrest]
    rfl

/-- Octets cannot be taken further for ever. -/
theorem run_length_le_work {actions : List Action} (hmoves : ∀ a ∈ actions, moves a = true)
    (run : (machine b).Run s actions u seen) : actions.length ≤ work s := by
  induction actions generalizing s seen with
  | nil => exact Nat.zero_le _
  | cons a rest ih =>
    obtain ⟨t, now, later, hstep, hrest, -⟩ := Machine.run_cons_iff.mp run
    rw [List.forall_mem_cons] at hmoves
    have hless := work_lt hmoves.1 (step_iff.mp hstep).2
    have hlater := ih hmoves.2 hrest
    rw [List.length_cons]
    omega

theorem completes (h : Inv b s trace)
    (hfree : ∀ more u later, (∀ a ∈ more, moves a = true) → (machine b).Run s more u later →
      ¬ Stalled b u) :
    ∃ more u later, (∀ a ∈ more, moves a = true) ∧ (machine b).Run s more u later ∧
      parsed (trace ++ later) = (orders trace).flatMap answers := by
  induction hwork : work s using Nat.strong_induction_on generalizing s trace with
  | _ left ih =>
    rcases progress h.stands h.within with ⟨a, t, seen, hmoves, hstep⟩ | hstalled | hidle
    · have hless := work_lt hmoves (step_iff.mp hstep).2
      obtain ⟨more, u, later, hmore, hrun, hparsed⟩ :=
        ih (work t) (by omega) (h.step hstep)
          (fun more u later hmore hrun => hfree (a :: more) u (seen ++ later)
            (List.forall_mem_cons.mpr ⟨hmoves, hmore⟩) (Machine.Run.cons hstep hrun)) rfl
      refine ⟨a :: more, u, seen ++ later, List.forall_mem_cons.mpr ⟨hmoves, hmore⟩,
        Machine.Run.cons hstep hrun, ?_⟩
      rw [← List.append_assoc, hparsed, orders_append, orders_of_moves hmoves (step_iff.mp hstep).2,
        List.append_nil]
    · exact absurd hstalled (hfree [] s [] (by simp) (Machine.Run.nil s))
    · obtain ⟨p, hp⟩ := h.flow
      refine ⟨[], s, [], by simp, Machine.Run.nil s, ?_⟩
      rw [List.append_nil]
      exact answered hp h.stands hidle

/-! ## How many orders a stall takes -/

/-- The orders that the simulator has begun on have filled the way back, and behind them octets
of orders have filled the way there. -/
theorem orders_of_stalled (h : Inv b s trace) (hstalled : Stalled b s) :
    (b.toOms / (2 * reportFrame) + 1) * orderFrame + b.toSim < (orders trace).length * orderFrame := by
  obtain ⟨p, hp⟩ := h.flow
  obtain ⟨horders, htodo, hcoming, hreported, hparsed⟩ := counts_of_flow hp
  have homs := List.length_pos_iff.mpr hstalled.oms
  have hsim := List.length_pos_iff.mpr hstalled.sim
  have htoSim := hstalled.toSim
  have htoOms := hstalled.toOms
  rw [orderFrame_eq, reportFrame_eq]
  omega

/-- The OMS has read nothing, and the simulator no octet behind the order that it is at. -/
structure Spared (s : State) (trace : List Event) : Prop where
  unread : OmsEngine.unread s.oms = []
  parsed : parsed trace = []
  sim : (SimExServer.unread s.sim).length ≤ 60
  held : SimExServer.unsent s.sim ≠ [] ∨ SimExServer.unfilled s.sim ≠ none →
    SimExServer.unread s.sim = []
  short : (SimExServer.unsent s.sim).length ≤ 76

theorem Spared.step (h : Spared s trace) (inv : Inv b s trace) (hsparing : sparing a = true)
    (hstep : Loopback.machine.step s a = some (u, seen)) : Spared u (trace ++ seen) := by
  obtain ⟨p, hp⟩ := inv.flow
  cases step_taken hstep with
  | oms x v heard may step after =>
    subst after
    have hnone : splitFrame (OmsEngine.unread s.oms) = none := by
      rw [h.unread]
      exact lengthPrefixed.decode_nil
    refine ⟨?_, ?_, h.sim, h.held, h.short⟩
    · cases OmsEngine.step_effect step with
      | recv chunk => cases may
      | skip now data rest split =>
        rw [hnone] at split
        cases split
      | report now data rest ex split =>
        rw [hnone] at split
        cases split
      | order req now gaps engine before frame read => exact read.trans h.unread
      | send r taken engine left read => exact read.trans h.unread
      | leaveLoop now noFrame engine before after read => exact read.trans h.unread
      | popExec engine sent read => exact read.trans h.unread
    · rw [parsed_append, h.parsed]
      cases OmsEngine.step_effect step with
      | report now data rest ex split =>
        rw [hnone] at split
        cases split
      | popExec engine sent read => cases (s.oms.engine.outbound.pop).2 <;> rfl
      | _ => rfl
  | omsRecv n v heard some_octets step after => cases hsparing
  | sim x w heard may step after =>
    subst after
    have hquiet : Loopback.parsed (trace ++ heard.map .sim) = [] := by
      rw [parsed_append, h.parsed]
      have homs : omsTrace (heard.map .sim) = [] := omsTrace_map_sim heard
      simp [Loopback.parsed, homs, OmsEngine.parsed]
    cases SimExServer.step_effect step with
    | recv chunk => cases may
    | leaveLoop recvTs sendTs gaps noFrame idle before noFill read =>
      have hunsent : SimExServer.unsent w = [] := by rw [SimExServer.unsent, idle]
      refine ⟨h.unread, hquiet, read ▸ h.sim, fun hheld => ?_, ?_⟩
      · rw [hunsent, SimExServer.unfilled, idle] at hheld
        simp at hheld
      · rw [hunsent]
        exact Nat.zero_le _
    | skip recvTs sendTs gaps data rest split invalid before sent noFill fill read =>
      have hlen := unread_of_frame hp split
      have hless := h.sim
      refine ⟨h.unread, hquiet, ?_, fun hheld => ?_, ?_⟩
      · rw [read]
        omega
      · rw [sent, fill] at hheld
        simp at hheld
      · rw [sent]
        exact Nat.zero_le _
    | ack recvTs sendTs gaps data rest order split valid before sent noFill fill read =>
      have hlen := unread_of_frame hp split
      have hless := h.sim
      have hrest : rest = [] := List.length_eq_zero_iff.mp (by omega)
      refine ⟨h.unread, hquiet, ?_, fun _ => read.trans hrest, ?_⟩
      · rw [read, hrest]
        exact Nat.zero_le _
      · rw [sent, report_length]
    | fill sendTs gaps order recvTs before sent due done read =>
      refine ⟨h.unread, hquiet, read ▸ h.sim, fun _ => read.trans (h.held (.inr ?_)), ?_⟩
      · rw [due]
        simp
      · rw [sent, report_length]
    | send r taken left fill read =>
      have hleft := sent_of_reliable may left
      refine ⟨h.unread, hquiet, read ▸ h.sim, fun hheld => read.trans (h.held ?_), ?_⟩
      · rcases hheld with hunsent | hunfilled
        · refine .inl ?_
          rw [hleft]
          exact fun hnil => hunsent (List.append_eq_nil_iff.mp hnil).2
        · exact .inr (fill ▸ hunfilled)
      · have hshort := h.short
        rw [hleft, List.length_append] at hshort
        exact (Nat.le_add_left _ _).trans hshort
  | simRecv n w heard some_octets step after =>
    subst after
    have hone : n = 1 := of_decide_eq_true hsparing
    subst hone
    cases SimExServer.step_effect step with
    | recv chunk idle sent fill read =>
      have hnone : splitFrame (SimExServer.unread s.sim) = none := by
        have hstands := inv.stands.sim
        rw [SimStands, idle] at hstands
        rw [SimExServer.unread, idle]
        exact hstands
      have hlt := unread_lt hp hnone
      refine ⟨h.unread, ?_, ?_, fun hheld => ?_, ?_⟩
      · rw [parsed_append, h.parsed]
        rfl
      · rw [read, List.length_append, List.length_take]
        omega
      · rw [sent, fill] at hheld
        simp at hheld
      · rw [sent]
        exact Nat.zero_le _

theorem spared_start (data : Fin (2 ^ kRingDepthLog) → ExecUpdate) : Spared (start data) [] :=
  ⟨rfl, rfl, Nat.zero_le _, fun _ => rfl, Nat.zero_le _⟩

/-- One more order for the OMS to send. -/
theorem order_step (hidle : s.oms.pc = .idle) : ∃ u seen,
    (machine b).step s (.oms (.order {} 0 (0, 0))) = some (u, seen) ∧ (orders seen).length = 1 ∧
      work u = work s + 42180 := by
  obtain ⟨⟨engine, rxBuffer, pc⟩, sim, toSim, toOms⟩ := s
  cases hidle
  refine ⟨_, _, rfl, rfl, ?_⟩
  have hframe : (packWithLength (engine.newOrder {} 0 (0, 0)).toBytes).length = 60 := by
    rw [packWithLength_length, WireNewOrder.toBytes_length]
    decide
  simp only [work, omsCost, OmsEngine.unread, OmsEngine.unsent, List.drop_zero, hframe,
    OmsEngine.accepted, List.flatMap_cons, List.flatMap_nil, List.append_nil, List.length_nil]
  omega

theorem stall_reached {n : Nat}
    (henough : (b.toOms / (2 * reportFrame) + 1) * orderFrame + b.toSim < n * orderFrame)
    (inv : Inv b s trace) (h : Spared s trace) (hn : (orders trace).length ≤ n) :
    ∃ actions t later, (machine b).Run s actions t later ∧ Stalled b t ∧
      (orders (trace ++ later)).length ≤ n := by
  induction hwork : (n - (orders trace).length) * 50000 + work s using Nat.strong_induction_on
    generalizing s trace with
  | _ left ih =>
    have hgo : ∀ {a u seen}, (machine b).step s a = some (u, seen) → sparing a = true →
        (orders (trace ++ seen)).length ≤ n →
        (n - (orders (trace ++ seen)).length) * 50000 + work u < left →
        ∃ actions t later, (machine b).Run s actions t later ∧ Stalled b t ∧
          (orders (trace ++ later)).length ≤ n := by
      intro a u seen hstep hsparing hfew hless
      obtain ⟨actions, t, later, hrun, hstalled, hall⟩ :=
        ih _ hless (inv.step hstep) (h.step inv hsparing (step_iff.mp hstep).2) hfew rfl
      rw [List.append_assoc] at hall
      exact ⟨a :: actions, t, seen ++ later, Machine.Run.cons hstep hrun, hstalled, hall⟩
    have hmove : Goes b s → ∃ actions t later, (machine b).Run s actions t later ∧ Stalled b t ∧
        (orders (trace ++ later)).length ≤ n := by
      intro hgoes
      obtain ⟨a, u, seen, hmoves, hsparing, hstep⟩ := hgoes
      have hsame : orders (trace ++ seen) = orders trace := by
        rw [orders_append, orders_of_moves hmoves (step_iff.mp hstep).2, List.append_nil]
      have hless := work_lt hmoves (step_iff.mp hstep).2
      apply hgo hstep hsparing
      · rw [hsame]
        exact hn
      · rw [hsame]
        omega
    obtain ⟨p, hp⟩ := inv.flow
    obtain ⟨horders, htodo, hcoming, -, hparsed⟩ := counts_of_flow hp
    rw [h.unread, List.length_nil] at hcoming
    rw [h.parsed, List.length_nil] at hparsed
    rw [orderFrame_eq, reportFrame_eq] at henough
    rcases oms_progress inv.stands inv.within with hgoes | hidle | ⟨hunsent, hfull⟩
    · exact hmove hgoes
    · by_cases hmore : (orders trace).length < n
      · obtain ⟨u, seen, hstep, hone, hmuch⟩ := order_step (b := b) hidle
        apply hgo hstep rfl
        · rw [orders_append, List.length_append]
          omega
        · rw [orders_append, List.length_append]
          omega
      · -- all the octets have been accepted, so the simulator has not come to the last order
        rw [OmsEngine.unsent, hidle, List.length_nil] at htodo
        rcases sim_progress inv.stands inv.within with hgoes | ⟨hreceiving, htoSim⟩ | ⟨hreport, htoOms⟩
        · exact hmove hgoes
        · have hstands := inv.stands.sim
          rw [SimStands, hreceiving] at hstands
          have hlt := @unread_lt s trace p hp (by rw [SimExServer.unread, hreceiving]; exact hstands)
          have hroom := inv.within.toOms
          rw [htoSim, List.length_nil] at htodo
          rw [SimExServer.unsent, hreceiving, List.length_nil] at hcoming
          rw [SimExServer.unfilled, hreceiving, Option.toList_none, List.length_nil] at hparsed
          omega
        · have hroom := inv.within.toSim
          have hshort := h.short
          have hunfilled : (SimExServer.unfilled s.sim).toList.length ≤ 1 := by
            cases SimExServer.unfilled s.sim with
            | none => exact Nat.zero_le _
            | some w => exact le_rfl
          rw [h.held (.inl hreport), List.length_nil] at htodo
          omega
    · rcases sim_progress inv.stands inv.within with hgoes | ⟨-, htoSim⟩ | ⟨hreport, htoOms⟩
      · exact hmove hgoes
      · have hpos := b.toSim_pos
        rw [htoSim, List.length_nil] at hfull
        omega
      · refine ⟨[], s, [], Machine.Run.nil s, ⟨hunsent, hreport, hfull, htoOms⟩, ?_⟩
        rw [List.append_nil]
        exact hn

/-- With `n` orders at most the two programs can come to wait for each other exactly when the
orders that fill the way back, and the octets that fill the way there, are fewer than all octets
of the orders. Then nothing moves any more, whatever the two do. Otherwise the octets on their way
are taken further, for a bounded number of steps and until every order has both its answers. -/
theorem exchange_stalls_iff (b : Buffers) (data : Fin (2 ^ kRingDepthLog) → ExecUpdate) :
    (∀ n, (∃ actions s trace, (machine b).Run (start data) actions s trace ∧
        (orders trace).length ≤ n ∧ Stalled b s) ↔
      (b.toOms / (2 * reportFrame) + 1) * orderFrame + b.toSim < n * orderFrame) ∧
    ∀ actions s trace, (machine b).Run (start data) actions s trace →
      (Stalled b s → ∀ more u later, (machine b).Run s more u later → Stuck b s u later) ∧
      (∃ bound, ∀ more u later, (∀ a ∈ more, moves a = true) → (machine b).Run s more u later →
        more.length ≤ bound) ∧
      ((orders trace).length * orderFrame ≤
          (b.toOms / (2 * reportFrame) + 1) * orderFrame + b.toSim →
        ∃ more u later, (∀ a ∈ more, moves a = true) ∧ (machine b).Run s more u later ∧
          parsed (trace ++ later) = (orders trace).flatMap answers) := by
  constructor
  · intro n
    constructor
    · intro hstall
      obtain ⟨actions, s, trace, hrun, hfew, hstalled⟩ := hstall
      have hmany := orders_of_stalled ((inv_start data).run hrun) hstalled
      exact hmany.trans_le (Nat.mul_le_mul_right _ hfew)
    · intro henough
      obtain ⟨actions, t, later, hrun, hstalled, hfew⟩ :=
        stall_reached henough (inv_start data) (spared_start data) (Nat.zero_le n)
      exact ⟨actions, t, later, hrun, hfew, hstalled⟩
  · intro actions s trace hrun
    have inv := (inv_start data).run hrun
    refine ⟨fun hstalled more u later run => stuck_run hstalled run,
      ⟨work s, fun more u later hmoves run => run_length_le_work hmoves run⟩, fun hfew => ?_⟩
    apply completes inv
    intro more u later hmoves run hstalled
    have hmany := orders_of_stalled (inv.run run) hstalled
    rw [orders_append, orders_of_run hmoves run, List.append_nil] at hmany
    exact absurd hfew (Nat.not_le.mpr hmany)

end CppCodes.Guarantees.ExchangeStall
