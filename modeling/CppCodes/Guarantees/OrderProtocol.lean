import CppCodes.System.Loopback

/-!
# The order protocol, end to end

Every order gets one acknowledgement and one fill, whatever the cuts of the byte
streams and the interleaving of the two programs, and the OMS books them under
the right entry.
-/

set_option autoImplicit false

namespace CppCodes.Guarantees.OrderProtocol

open CppCodes.Library
open CppCodes.Source.HftTest
open CppCodes.System CppCodes.System.Loopback

/-- The simulator waits in `recv`, and nothing is on a stream or in a buffer. -/
structure Quiet (s : State) : Prop where
  sim : s.sim.pc = .receiving
  buf : s.sim.buf = []
  toSim : s.toSim = []
  toOms : s.toOms = []
  rxBuffer : s.oms.rxBuffer = []

/-- The orders `send_all` is done with: all of them, except the one whose frame it
is still sending. -/
def handedOver (s : State) (trace : List Event) : List Order :=
  if OmsEngine.unsent s.oms = [] then orders trace else (orders trace).dropLast

/-- What holds in a state reached with this trace. -/
structure Protocol (s : State) (trace : List Event) : Prop where
  distinct : ((orders trace).map Order.id).Nodup
  carried : ∀ o ∈ orders trace, o.Carries
  /-- One `Ack`, then one `Fill`, for each order in turn and for nothing else. -/
  answered : reported trace <+: (orders trace).flatMap answers
  heard : parsed trace <+: reported trace
  found : ∀ ex entry, Event.oms (.parsed ex entry) ∈ trace →
    ∃ st, entry = some st ∧ st.mdEventId = ex.mdEventId
  entries : ∀ id st, s.oms.engine.orders.lookup id = some st →
    (st.state = .ack ∧ st.filled = 0) ∨ (st.state = .fill ∧ st.filled = st.qty)
  settled : Quiet s → reported trace = (handedOver s trace).flatMap answers ∧
    ∀ o ∈ handedOver s trace,
      s.oms.engine.orders.lookup o.id = some (OmsEngine.orderState o.1 .fill o.1.qty)

theorem frames_length_orders (todo : List Order) :
    (frames (todo.map (·.2.toBytes))).length = (4 + sizeofWireNewOrder) * todo.length := by
  induction todo with
  | nil => rfl
  | cons o todo ih =>
    have hcons : frames ((o :: todo).map (·.2.toBytes)) =
        packWithLength o.2.toBytes ++ frames (todo.map (·.2.toBytes)) := rfl
    rw [hcons, List.length_append, ih, packWithLength_length, WireNewOrder.toBytes_length,
      List.length_cons, Nat.mul_succ]
    omega

theorem frames_eq_nil {payloads : List Bytes} (h : frames payloads = []) : payloads = [] := by
  cases payloads with
  | nil => rfl
  | cons payload payloads =>
    have hlen := congrArg List.length h
    rw [frames, List.flatMap_cons, List.length_append, packWithLength_length, List.length_nil] at hlen
    omega

theorem missing_eq_nil {acked : Option Order} {rest : List Order} (h : missing acked rest = []) :
    acked = none ∧ rest = [] := by
  unfold missing at h
  obtain ⟨hacked, hrest⟩ := List.append_eq_nil_iff.mp h
  constructor
  · cases acked with
    | none => rfl
    | some o => cases hacked
  · cases rest with
    | nil => rfl
    | cons o rest => cases hrest

/-- Both answers of an order missing and no others: nothing is acknowledged, and
the order stands for the only one without an answer. -/
theorem missing_eq_answers {acked : Option Order} {rest : List Order} {o : Order}
    (h : missing acked rest = answers o) :
    acked = none ∧ ∃ o', rest = [o'] ∧ answers o' = answers o := by
  cases acked with
  | some o' =>
    have hfirst : Answer.fill o'.2 = Answer.ack o.2 := (List.cons.inj h).1
    exact absurd hfirst.symm (Answer.ack_ne_fill _ _)
  | none =>
    refine ⟨rfl, ?_⟩
    cases rest with
    | nil => cases h
    | cons o' rest =>
      have hcons : answers o' ++ missing none rest = answers o ++ [] := by
        rw [List.append_nil]
        exact h
      obtain ⟨hsame, hnone⟩ := List.append_inj hcons rfl
      obtain ⟨-, rfl⟩ := missing_eq_nil hnone
      exact ⟨o', rfl, hsame⟩

section Flow

variable {p : Progress} {s : State} {trace : List Event}

theorem flow_heard (h : Flow p s trace) : parsed trace <+: reported trace := by
  have hall := h.parsed.trans h.reported.symm
  rw [← h.due, ← List.append_assoc] at hall
  exact ⟨_, List.append_cancel_right hall⟩

/-- In a quiet state only an order not handed over can lack its answers. -/
theorem flow_settled (h : Flow p s trace) (quiet : Quiet s) :
    handedOver s trace = p.filled ∧ reported trace = p.filled.flatMap answers := by
  have hunfilled : SimExServer.unfilled s.sim = none := by
    rw [SimExServer.unfilled, quiet.sim]
  have hcoming : p.coming = [] := by
    have hframes := h.toOms
    have hsim : SimExServer.unsent s.sim = [] := by rw [SimExServer.unsent, quiet.sim]
    have homs : OmsEngine.unread s.oms = [] := by
      rw [OmsEngine.unread, quiet.rxBuffer]
      split <;> simp
    rw [homs, quiet.toOms, hsim] at hframes
    exact List.map_eq_nil_iff.mp (frames_eq_nil hframes.symm)
  have hdue := h.due
  have hreported := h.reported
  rw [hunfilled, hcoming] at hdue
  rw [hunfilled] at hreported
  have hframes := h.toSim
  have hread : SimExServer.unread s.sim = [] := by
    rw [SimExServer.unread, quiet.sim]
    exact quiet.buf
  rw [hread, quiet.toSim, List.nil_append, List.nil_append] at hframes
  unfold handedOver
  rw [h.orders]
  obtain ⟨filled, acked, rest, todo, coming⟩ := p
  cases todo with
  | nil =>
    obtain ⟨rfl, rfl⟩ := missing_eq_nil (show missing acked rest = [] from hdue.symm)
    rw [if_pos (show OmsEngine.unsent s.oms = [] from hframes)]
    refine ⟨by simp [Progress.sent], ?_⟩
    simpa [Progress.sent, Progress.unbuilt] using hreported
  | cons o todo =>
    have hone : todo = [] := by
      have hlen := frames_length_orders (o :: todo)
      have hshort := h.short
      rw [← hframes] at hlen
      rw [hlen, List.length_cons, Nat.mul_succ] at hshort
      have hpos : 0 < 4 + sizeofWireNewOrder := by decide
      have hzero : (4 + sizeofWireNewOrder) * todo.length = 0 := by omega
      rcases Nat.mul_eq_zero.mp hzero with h0 | h0
      · omega
      · exact List.length_eq_zero_iff.mp h0
    subst hone
    obtain ⟨rfl, o', rfl, hanswers⟩ := missing_eq_answers (show missing acked rest = answers o from hdue.symm)
    have hunsent : OmsEngine.unsent s.oms ≠ [] := by
      intro hnil
      rw [hnil] at hframes
      cases frames_eq_nil hframes.symm
    rw [if_neg hunsent]
    refine ⟨by simp [Progress.sent], ?_⟩
    have hlast : reported trace ++ answers o = filled.flatMap answers ++ answers o := by
      simpa [Progress.sent, Progress.unbuilt, hanswers] using hreported
    exact List.append_cancel_right hlast

end Flow

theorem flow_protocol {p : Progress} {s : State} {trace : List Event} (h : Flow p s trace)
    (fits : (orders trace).length < 2 ^ 64) : Protocol s trace := by
  have hfits : p.sent.length < 2 ^ 64 := by
    rw [h.orders] at fits
    exact fits
  refine ⟨?_, ?_, ?_, flow_heard h, h.found hfits, ?_, ?_⟩
  · rw [h.orders]
    exact h.issued.nodup hfits
  · rw [h.orders]
    exact h.issued.carried
  · rw [h.orders]
    exact ⟨_, h.reported⟩
  · intro id st hst
    exact (h.ledger hfits).entry_cases hst
  · intro quiet
    obtain ⟨hover, hreported⟩ := flow_settled h quiet
    rw [hover]
    exact ⟨hreported, (h.ledger hfits).closed⟩

/-- The protocol holds in every state that any cutting of the streams and any
interleaving of the two programs can reach, as long as fewer than `2 ^ 64` orders
were sent. -/
theorem orders_answered_once (data : Fin (2 ^ kRingDepthLog) → ExecUpdate) (actions : List Action)
    (s : State) (trace : List Event) (h : machine.Run (start data) actions s trace)
    (fits : (orders trace).length < 2 ^ 64) : Protocol s trace := by
  obtain ⟨p, hp⟩ := run_flow h
  exact flow_protocol hp fits

/-- One order, its frame cut inside the length word and inside the struct, both
reports read in one piece. -/
theorem orders_answered_once_one_order :
    ∃ s trace, machine.Run (start fun _ => {})
        [.oms (.order { mdEventId := 7, side := .sell, px := 28000000, qty := 1 } 5 (0, 0)),
          .oms (.send (.accepted 3)), .oms (.send .eagain), .simRecv 3, .sim (.parse 0 0 (0, 0)),
          .oms (.send (.accepted 57)), .simRecv 57, .sim (.parse 6 7 (0, 0)),
          .sim (.send (.accepted 76)), .sim (.fill 8 (0, 0)), .sim (.send (.accepted 76)),
          .sim (.parse 0 0 (0, 0)), .omsRecv 152, .oms (.parse 9), .oms (.parse 9),
          .oms (.parse 9)] s trace ∧
      Quiet s ∧ (orders trace).length = 1 ∧ Protocol s trace := by
  have hrun := Machine.run_of_isSome (m := machine) (start fun _ => {})
    [.oms (.order { mdEventId := 7, side := .sell, px := 28000000, qty := 1 } 5 (0, 0)),
      .oms (.send (.accepted 3)), .oms (.send .eagain), .simRecv 3, .sim (.parse 0 0 (0, 0)),
      .oms (.send (.accepted 57)), .simRecv 57, .sim (.parse 6 7 (0, 0)),
      .sim (.send (.accepted 76)), .sim (.fill 8 (0, 0)), .sim (.send (.accepted 76)),
      .sim (.parse 0 0 (0, 0)), .omsRecv 152, .oms (.parse 9), .oms (.parse 9),
      .oms (.parse 9)] (by decide +kernel)
  refine ⟨_, _, hrun, ?_, ?_, orders_answered_once _ _ _ _ hrun ?_⟩
  · constructor <;> decide +kernel
  · decide +kernel
  · decide +kernel

end CppCodes.Guarantees.OrderProtocol
