import CppCodes.System.Trading

/-!
# One active order

`drain_execs` clears `active_order_` on an acknowledgement as on a fill. While the
two reports of an order reach the strategy between the same two market events,
every order is filled before the next one is sent; when a market event comes in
between, the flag is clear with the order still in the market.
-/

set_option autoImplicit false

namespace CppCodes.Guarantees.SingleActiveOrder

open CppCodes.Library
open CppCodes.Source.HftTest
open CppCodes.System CppCodes.System.Trading

/-- Order number `i`, counted from 0, has had a terminal report processed. The OMS
gives it the id `i + 1`. -/
def Ended (trace : List Event) (i : Nat) : Prop :=
  ∃ ex ∈ drained trace, ex.clOrdId = UInt64.ofNat (i + 1) ∧ ex.execType.terminal = true

/-- Whenever an order is sent, every order sent before it has ended. -/
def SingleActive (trace : List Event) : Prop :=
  ∀ k req, (trace)[k]? = some (.sent req) → ∀ i < (sent (trace.take k)).length,
    Ended (trace.take k) i

variable {F : Type} [Double F]

/-- No market event that reaches `drain_execs` finds the acknowledgement of an order
among the pending reports without its fill. -/
def AckWithFill (s : State F) : Action → Prop
  | .onBook delta => reachesDrain s delta = true →
      ∀ ex, s.strategy.pendingExecs.getLast? = some ex → ex.execType ≠ .ack
  | _ => True

/-- The answers drained so far. -/
def heard (trace : List Event) : List Answer := (drained trace).map .ofUpdate

/-- All answers to the orders the OMS has taken. -/
def expected (trace : List Event) : List Answer :=
  (Loopback.orders (netTrace trace)).flatMap answers

/-- Nothing outstanding, an order on its way to the OMS, or an order the OMS has
taken and of which the strategy has drained nothing. -/
inductive Phase (s : State F) (trace : List Event) : Prop where
  | quiet (active : s.strategy.activeOrder = false) (all : heard trace = expected trace)
      (none : s.inbound.contents = [])
  | queued (active : s.strategy.activeOrder = true) (all : heard trace = expected trace)
      (one : ∃ req, s.inbound.contents = [req])
  | working (active : s.strategy.activeOrder = true) (o : Order)
      (last : heard trace ++ answers o = expected trace) (none : s.inbound.contents = [])

theorem heard_append (before after : List Event) :
    heard (before ++ after) = heard before ++ heard after := by
  simp only [heard, drained, List.filterMap_append, List.map_append]

theorem expected_append (before after : List Event) :
    expected (before ++ after) = expected before ++ expected after := by
  simp only [expected, netTrace_append, Loopback.orders_append, List.flatMap_append]

section Steps

variable {s u : State F} {p : Loopback.Progress} {trace seen : List Event}

omit [Double F] in
/-- The answers between what was drained and what is expected: pending reports,
reports in the ring, and the missing ones, in this order. -/
theorem undrained (wiring : Wiring s trace) (delivered : Delivered s trace)
    (flow : Loopback.Flow p s.net (netTrace trace)) :
    heard trace ++ (s.strategy.pendingExecs.map Answer.ofUpdate ++
      (s.net.oms.engine.outbound.contents.map Answer.ofUpdate ++ p.missing)) = expected trace := by
  have hparsed : (parsed trace).map Answer.ofUpdate ++ p.missing = expected trace := by
    rw [expected, flow.orders]
    exact flow.parsed
  rw [← hparsed, ← delivered, wiring.heard]
  simp only [heard, List.map_append, List.append_assoc]

omit [Double F] in
/-- The pending reports when everything was drained, and while an order works. -/
theorem pending_quiet (wiring : Wiring s trace) (delivered : Delivered s trace)
    (flow : Loopback.Flow p s.net (netTrace trace)) (all : heard trace = expected trace) :
    s.strategy.pendingExecs = [] ∧ s.net.oms.engine.outbound.contents = [] := by
  have hrest := undrained wiring delivered flow
  rw [← all] at hrest
  have hnil := List.append_cancel_left (hrest.trans (List.append_nil _).symm)
  rw [List.append_eq_nil_iff, List.append_eq_nil_iff, List.map_eq_nil_iff,
    List.map_eq_nil_iff] at hnil
  exact ⟨hnil.1, hnil.2.1⟩

omit [Double F] in
theorem pending_working (wiring : Wiring s trace) (delivered : Delivered s trace)
    (flow : Loopback.Flow p s.net (netTrace trace)) {o : Order}
    (last : heard trace ++ answers o = expected trace) :
    s.strategy.pendingExecs.map Answer.ofUpdate ++
      (s.net.oms.engine.outbound.contents.map Answer.ofUpdate ++ p.missing) = answers o := by
  have hrest := undrained wiring delivered flow
  rw [← last] at hrest
  exact List.append_cancel_left hrest

omit [Double F] in
/-- With at most one order outstanding the ring is never full. -/
theorem phase_noLoss (h : Phase s trace) (wiring : Wiring s trace) (delivered : Delivered s trace)
    (flow : Loopback.Flow p s.net (netTrace trace)) (a : Action) : NoLoss s a := by
  have hfew : s.net.oms.engine.outbound.contents.length ≤ 2 := by
    cases h with
    | quiet active all none =>
      rw [(pending_quiet wiring delivered flow all).2]
      exact Nat.zero_le _
    | queued active all one =>
      rw [(pending_quiet wiring delivered flow all).2]
      exact Nat.zero_le _
    | working active o last none =>
      have hlen := congrArg List.length (pending_working wiring delivered flow last)
      simp only [List.length_append, List.length_map, answers, List.length_cons,
        List.length_nil] at hlen
      omega
  have hroom : s.net.oms.engine.outbound.contents.length <
      SPSCRing.capacity kRingDepthLog - 1 := lt_of_le_of_lt hfew (by decide)
  cases a with
  | net a =>
    cases a with
    | oms a =>
      cases a with
      | parse now => exact fun _ _ _ _ _ => hroom
      | _ => trivial
    | _ => trivial
  | _ => trivial

omit [Double F] in
/-- When everything was drained, every order sent has ended. -/
theorem ended_of_quiet (wiring : Wiring s trace) (flow : Loopback.Flow p s.net (netTrace trace))
    (all : heard trace = expected trace) (none : s.inbound.contents = []) :
    ∀ i < (sent trace).length, Ended trace i := by
  intro i hi
  have hsent : (Loopback.orders (netTrace trace)).length = (sent trace).length := by
    have hlen := congrArg List.length wiring.requests
    rw [none, List.append_nil, List.length_map] at hlen
    exact hlen
  have hlt : i < (Loopback.orders (netTrace trace)).length := hsent ▸ hi
  let o := (Loopback.orders (netTrace trace))[i]
  have hid : o.id = UInt64.ofNat (i + 1) := by
    have hids := flow.issued.ids
    rw [← flow.orders] at hids
    have hget := congrArg (fun l => l[i]?) hids
    simpa [issued, o, hlt] using hget
  have hfill : Answer.fill o.2 ∈ heard trace := by
    rw [all, expected, List.mem_flatMap]
    exact ⟨o, List.getElem_mem hlt, by simp [answers]⟩
  obtain ⟨ex, hex, hans⟩ := List.mem_map.mp hfill
  refine ⟨ex, hex, ?_, ?_⟩
  · rw [← hid]
    exact congrArg Answer.clOrdId hans
  · have htype : ex.execType = .fill := congrArg Answer.execType hans
    rw [htype]
    rfl

/-- A step keeps the property if it sends nothing, or sends first and only when
every order has ended. -/
theorem singleActive_append (h : SingleActive trace)
    (hseen : ∀ k req, (seen)[k]? = some (.sent req) →
      k = 0 ∧ ∀ i < (sent trace).length, Ended trace i) : SingleActive (trace ++ seen) := by
  intro k req hk
  by_cases hlt : k < trace.length
  · rw [List.getElem?_append_left hlt] at hk
    rw [List.take_append_of_le_length (by omega)]
    exact h k req hk
  · rw [List.getElem?_append_right (by omega)] at hk
    obtain ⟨hzero, hended⟩ := hseen _ _ hk
    have hk' : k = trace.length := by omega
    rw [hk', List.take_left]
    exact hended

theorem not_sent_map_drained (execs : List ExecUpdate) (k : Nat) (req : OrderRequest) :
    (execs.map Event.drained)[k]? ≠ some (.sent req) := by
  intro h
  obtain ⟨ex, -, he⟩ := List.mem_map.mp (List.mem_of_getElem? h)
  cases he

theorem not_sent_map_net (now : List Loopback.Event) (k : Nat) (req : OrderRequest) :
    (now.map Event.net)[k]? ≠ some (.sent req) := by
  intro h
  obtain ⟨e, -, he⟩ := List.mem_map.mp (List.mem_of_getElem? h)
  cases he

theorem onBook_expected (trace : List Event) (delta : BookDelta) :
    expected (trace ++ (onBook s delta).2) = expected trace := by
  obtain ⟨hnet, -, -⟩ := onBook_history (s := s) delta
  have hnone : expected (onBook s delta).2 = [] := by
    rw [expected, hnet]
    rfl
  rw [expected_append, hnone, List.append_nil]

/-- While an order works, what is pending is nothing, its acknowledgement, or both
of its reports. -/
theorem pending_cases {pending : List ExecUpdate} {later : List Answer} {o : Order}
    (h : pending.map Answer.ofUpdate ++ later = answers o) :
    pending = [] ∨ (∃ ack, pending = [ack] ∧ Answer.ofUpdate ack = .ack o.2) ∨
      ∃ ack fill, pending = [ack, fill] ∧ Answer.ofUpdate ack = .ack o.2 ∧
        Answer.ofUpdate fill = .fill o.2 := by
  rcases pending with _ | ⟨ack, _ | ⟨fill, _ | ⟨other, rest⟩⟩⟩
  · exact Or.inl rfl
  · exact Or.inr (Or.inl ⟨ack, rfl, (List.cons.inj h).1⟩)
  · obtain ⟨hack, hrest⟩ := List.cons.inj h
    exact Or.inr (Or.inr ⟨ack, fill, rfl, hack, (List.cons.inj hrest).1⟩)
  · have hlen := congrArg List.length h
    simp [answers] at hlen

theorem clears_ack {ex : ExecUpdate} {w : WireNewOrder} (h : Answer.ofUpdate ex = .ack w) :
    ex.execType = .ack ∧ Strategy.clears ex = true := by
  have htype : ex.execType = .ack := congrArg Answer.execType h
  refine ⟨htype, ?_⟩
  rw [Strategy.clears, htype]

/-- A market event moves between the phases when acknowledgements come with their fills. -/
theorem onBook_phase (h : Phase s trace) (wiring : Wiring s trace) (delivered : Delivered s trace)
    (flow : Loopback.Flow p s.net (netTrace trace)) {delta : BookDelta}
    (hcond : AckWithFill s (.onBook delta)) :
    Phase (onBook s delta).1 (trace ++ (onBook s delta).2) ∧
      ∀ k req, ((onBook s delta).2)[k]? = some (.sent req) →
        k = 0 ∧ ∀ i < (sent trace).length, Ended trace i := by
  obtain ⟨-, hdrained, hcontents⟩ := onBook_history (s := s) delta
  have hexpected := onBook_expected (s := s) trace delta
  have hheard : heard (trace ++ (onBook s delta).2) =
      heard trace ++ (drained (onBook s delta).2).map Answer.ofUpdate := heard_append _ _
  rcases onBook_cases s delta with ⟨hreach, hstate, hseen⟩ |
    ⟨hreach, stats, book, ⟨hstate, hseen⟩ | ⟨req, hinactive, hstate, hseen⟩⟩
  · rw [hseen, List.append_nil, hstate]
    refine ⟨?_, by simp⟩
    cases h with
    | quiet active all none => exact .quiet active all none
    | queued active all one => exact .queued active all one
    | working active o last none => exact .working active o last none
  · refine ⟨?_, ?_⟩
    · rw [hreach, if_pos rfl] at hdrained
      rw [hdrained] at hheard
      have hactive : (onBook s delta).1.strategy.activeOrder = (s.strategy.activeOrder &&
          s.strategy.pendingExecs.all fun ex => !Strategy.clears ex) := by
        rw [hstate]
        exact Strategy.drainExecs_activeOrder _
      have hinbound : (onBook s delta).1.inbound = s.inbound := by rw [hstate]
      cases h with
      | quiet active all none =>
        obtain ⟨hpending, -⟩ := pending_quiet wiring delivered flow all
        rw [hpending, List.map_nil, List.append_nil] at hheard
        exact .quiet (by rw [hactive, active, Bool.false_and])
          (by rw [hheard, hexpected, all]) (by rw [hinbound, none])
      | queued active all one =>
        obtain ⟨hpending, -⟩ := pending_quiet wiring delivered flow all
        rw [hpending, List.map_nil, List.append_nil] at hheard
        exact .queued (by rw [hactive, active, hpending]; rfl)
          (by rw [hheard, hexpected, all]) (by rw [hinbound]; exact one)
      | working active o last none =>
        rcases pending_cases (pending_working wiring delivered flow last) with
          hpending | ⟨ack, hpending, hack⟩ | ⟨ack, fill, hpending, hack, hfill⟩
        · rw [hpending, List.map_nil, List.append_nil] at hheard
          exact .working (by rw [hactive, active, hpending]; rfl) o
            (by rw [hheard, hexpected, last]) (by rw [hinbound, none])
        · exact absurd (clears_ack hack).1 (hcond hreach ack (by rw [hpending]; rfl))
        · rw [hpending, List.map_cons, List.map_singleton, hack, hfill] at hheard
          refine .quiet ?_ (by rw [hheard, hexpected]; exact last) (by rw [hinbound, none])
          rw [hactive, hpending, List.all_cons, (clears_ack hack).2]
          simp
    · intro k req hk
      rw [hseen] at hk
      exact absurd hk (not_sent_map_drained _ _ _)
  · cases h with
    | quiet active all none =>
      obtain ⟨hpending, -⟩ := pending_quiet wiring delivered flow all
      obtain ⟨hpush, hpushed⟩ := s.inbound.push_spec req
      have haccept : pushOrder s req = true := by
        rw [pushOrder, hpush, none]
        decide
      rw [haccept, if_pos rfl, hpending, List.map_nil, List.append_nil] at hseen
      rw [hreach, if_pos rfl, hpending] at hdrained
      rw [hdrained, List.map_nil, List.append_nil] at hheard
      refine ⟨.queued ?_ (by rw [hheard, hexpected, all]) ⟨req, ?_⟩, ?_⟩
      · rw [hstate]
        dsimp only
        rw [Strategy.drainExecs_activeOrder, haccept]
        simp [Strategy.afterSend, hpending]
      · rw [hcontents, none, hseen]
        rfl
      · intro k req' hk
        rw [hseen] at hk
        have hzero : k = 0 := by
          have hlt := (List.getElem?_eq_some_iff.mp hk).1
          simpa using hlt
        exact ⟨hzero, ended_of_quiet wiring flow all none⟩
    | queued active all one =>
      rw [active] at hinactive
      cases hinactive
    | working active o last none =>
      rw [active] at hinactive
      cases hinactive

omit [Double F] in
/-- A step that orders, drains and queues nothing and leaves the flag keeps the phase. -/
theorem Phase.keep {now : List Loopback.Event} (h : Phase s trace)
    (active : u.strategy.activeOrder = s.strategy.activeOrder)
    (inbound : u.inbound.contents = s.inbound.contents)
    (orders : Loopback.orders now = []) : Phase u (trace ++ now.map .net) := by
  have hheard : heard (trace ++ now.map .net) = heard trace := by
    rw [heard_append, heard, heard, drained_map_net, List.map_nil, List.append_nil]
  have hexpected : expected (trace ++ now.map .net) = expected trace := by
    have hnone : expected (now.map .net) = [] := by
      rw [expected, netTrace_map_net, orders]
      rfl
    rw [expected_append, hnone, List.append_nil]
  cases h with
  | quiet flag all none =>
    exact .quiet (active.trans flag) (by rw [hheard, hexpected, all]) (inbound.trans none)
  | queued flag all one =>
    exact .queued (active.trans flag) (by rw [hheard, hexpected, all]) (by rw [inbound]; exact one)
  | working flag o last none =>
    exact .working (active.trans flag) o (by rw [hheard, hexpected, last]) (inbound.trans none)

omit [Double F] in
/-- The OMS takes the one order that was queued. -/
theorem takeOrder_phase (h : Phase s trace) {req : OrderRequest} {now : Int64}
    {gaps : UInt32 × UInt32} {during : List Loopback.Event}
    (pop : s.inbound.pop = (u.inbound, some req))
    (step : Loopback.machine.step s.net (.oms (.order req now gaps)) = some (u.net, during))
    (active : u.strategy.activeOrder = s.strategy.activeOrder) :
    Phase u (trace ++ during.map .net) := by
  obtain ⟨hordered, -⟩ := Loopback.step_history step
  obtain ⟨hcontents, -⟩ := s.inbound.pop_spec
  rw [pop] at hcontents
  have hempty : ∀ {l : List OrderRequest}, s.inbound.contents = l → l.length ≤ 1 →
      u.inbound.contents = [] ∧ l ≠ [] := by
    intro l hl hle
    rw [hl] at hcontents
    subst hcontents
    simp only [Option.toList_some, List.singleton_append, List.length_cons] at hle
    exact ⟨List.eq_nil_of_length_eq_zero (by omega), by simp⟩
  cases h with
  | quiet flag all none => exact absurd rfl (hempty none (Nat.zero_le 1)).2
  | working flag o last none => exact absurd rfl (hempty none (Nat.zero_le 1)).2
  | queued flag all one =>
    obtain ⟨req', hone⟩ := one
    refine .working (active.trans flag) (req, s.net.oms.engine.newOrder req now gaps) ?_
      (hempty hone (le_refl 1)).1
    have hnew : expected (during.map .net) =
        answers (req, s.net.oms.engine.newOrder req now gaps) := by
      rw [expected, netTrace_map_net, hordered]
      exact List.append_nil _
    have hheard : heard (during.map .net) = [] := by
      rw [heard, drained_map_net]
      rfl
    rw [heard_append, expected_append, hnew, hheard, List.append_nil, all]

/-- One step keeps the phases and the property. -/
theorem step_phase {a : Action} (h : Phase s trace) (single : SingleActive trace)
    (wiring : Wiring s trace) (delivered : Delivered s trace)
    (flow : Loopback.Flow p s.net (netTrace trace)) (hcond : AckWithFill s a)
    (hstep : (machine F).step s a = some (u, seen)) :
    Phase u (trace ++ seen) ∧ SingleActive (trace ++ seen) := by
  have hnet : ∀ now : List Loopback.Event, SingleActive (trace ++ now.map .net) := by
    intro now
    refine singleActive_append single ?_
    intro k req hk
    exact absurd hk (not_sent_map_net now k req)
  cases step_effect hstep with
  | onBook delta after =>
    obtain ⟨hphase, hsends⟩ := onBook_phase h wiring delivered flow hcond
    rw [after]
    exact ⟨hphase, singleActive_append single hsends⟩
  | popExec now step strategy inbound =>
    obtain ⟨hordered, -⟩ := Loopback.step_history step
    obtain ⟨-, -, hactive⟩ := onPop_spec s.strategy (s.net.oms.engine.outbound.pop).2
    rw [← Loopback.popExec_seen step, ← strategy] at hactive
    exact ⟨h.keep hactive (by rw [inbound]) hordered, hnet now⟩
  | takeOrder now gaps req during pop step strategy =>
    exact ⟨takeOrder_phase h pop step (by rw [strategy]), hnet during⟩
  | net a now may step strategy inbound =>
    obtain ⟨hordered, -⟩ := Loopback.step_history step
    have hnone : Loopback.orders now = [] := by
      rw [hordered]
      cases a with
      | oms a => cases a <;> first | rfl | cases may
      | _ => rfl
    exact ⟨h.keep (by rw [strategy]) (by rw [inbound]) hnone, hnet now⟩

end Steps

/-! ## Whole runs -/

section Runs

variable {cfg : StrategyConfig F} {slots : Slots} {actions : List Action} {s : State F}
  {trace : List Event}

theorem run_progress (h : (machine F).Run (start cfg slots) actions s trace) :
    ∃ p, Loopback.Flow p s.net (netTrace trace) := by
  obtain ⟨actions', hnet⟩ := run_net h
  exact Loopback.run_flow hnet

theorem run_phase (h : (machine F).Run (start cfg slots) actions s trace)
    (hcond : (machine F).StepsMeet AckWithFill (start cfg slots) actions) :
    Phase s trace ∧ SingleActive trace ∧ Delivered s trace := by
  refine h.induction (P := fun actions s trace =>
    (machine F).StepsMeet AckWithFill (start cfg slots) actions →
    Phase s trace ∧ SingleActive trace ∧ Delivered s trace) ?_ ?_ hcond
  · intro _
    refine ⟨.quiet rfl rfl (SPSCRing.contents_empty slots.inbound), ?_, start_delivered cfg slots⟩
    intro k req hk
    cases hk
  · intro actions t trace a u seen hrun ih hstep hmeet
    obtain ⟨hbefore, hlast⟩ := (Machine.stepsMeet_snoc_iff hrun).mp hmeet
    obtain ⟨hphase, hsingle, hdelivered⟩ := ih hbefore
    obtain ⟨p, hflow⟩ := run_progress hrun
    have hwiring := run_wiring hrun
    have hroom := phase_noLoss hphase hwiring hdelivered hflow a
    obtain ⟨hphase', hsingle'⟩ :=
      step_phase hphase hsingle hwiring hdelivered hflow hlast hstep
    exact ⟨hphase', hsingle', step_delivered hdelivered hroom hstep⟩

omit [Double F] in
/-- With only the acknowledgement of the last order drained, that order has not ended. -/
theorem last_not_ended (wiring : Wiring s trace) {p : Loopback.Progress}
    (flow : Loopback.Flow p s.net (netTrace trace)) (fits : (sent trace).length < 2 ^ 64)
    (none : s.inbound.contents = []) {o : Order} (last : heard trace ++ answers o = expected trace)
    {seen : List Event} (hnow : heard seen = [.ack o.2]) :
    (sent trace).length ≠ 0 ∧ ¬ Ended (trace ++ seen) ((sent trace).length - 1) := by
  have hlen := congrArg List.length wiring.requests
  rw [none, List.append_nil, List.length_map] at hlen
  have hids : (Loopback.orders (netTrace trace)).map Order.id = issued (sent trace).length := by
    rw [← hlen, flow.orders]
    exact flow.issued.ids
  rw [expected] at last
  rcases List.eq_nil_or_concat (Loopback.orders (netTrace trace)) with hnil | ⟨before, o', hsnoc⟩
  · rw [hnil] at last
    have hbad := congrArg List.length last
    simp [answers] at hbad
  · rw [List.concat_eq_append] at hsnoc
    rw [hsnoc, List.length_append, List.length_singleton] at hlen
    rw [hsnoc, List.flatMap_append, List.flatMap_singleton] at last
    obtain ⟨hbefore, hanswers⟩ := List.append_inj' last rfl
    have hsame : o.2.clOrdId = o'.id := congrArg Answer.clOrdId (List.cons.inj hanswers).1
    have hn : (sent trace).length = before.length + 1 := hlen.symm
    rw [hsnoc, List.map_append, List.map_singleton, hn, issued_succ] at hids
    obtain ⟨hold, hlast⟩ := List.append_inj' hids rfl
    have hid : o'.id = UInt64.ofNat (before.length + 1) := List.singleton_inj.mp hlast
    have hfresh : UInt64.ofNat (before.length + 1) ∉ before.map Order.id := by
      rw [hold]
      exact next_not_issued (by omega)
    refine ⟨by omega, ?_⟩
    intro hparts
    obtain ⟨ex, hex, hexid, hterminal⟩ := hparts
    rw [show (sent trace).length - 1 + 1 = before.length + 1 by omega] at hexid
    have hheard : Answer.ofUpdate ex ∈ heard (trace ++ seen) := List.mem_map_of_mem hex
    rw [heard_append, hbefore, hnow, List.mem_append, List.mem_flatMap, List.mem_singleton]
      at hheard
    rcases hheard with ⟨old, hmem, hans⟩ | hack
    · have holdid : ex.clOrdId = old.id := by
        simp only [answers, List.mem_cons, List.not_mem_nil, or_false] at hans
        rcases hans with hans | hans
        · exact congrArg Answer.clOrdId hans
        · exact congrArg Answer.clOrdId hans
      exact hfresh (List.mem_map.mpr ⟨old, hmem, by rw [← holdid, hexid]⟩)
    · rw [(clears_ack hack).1] at hterminal
      cases hterminal

/-- Draining an acknowledgement without its fill clears the flag with the order
still in the market. -/
theorem onBook_ack_alone {p : Loopback.Progress} (h : Phase s trace) (wiring : Wiring s trace)
    (delivered : Delivered s trace) (flow : Loopback.Flow p s.net (netTrace trace))
    (fits : (sent trace).length < 2 ^ 64) {delta : BookDelta}
    (halone : ¬ AckWithFill s (.onBook delta)) :
    (onBook s delta).1.strategy.activeOrder = false ∧ (sent trace).length ≠ 0 ∧
      ¬ Ended (trace ++ (onBook s delta).2) ((sent trace).length - 1) := by
  unfold AckWithFill at halone
  push Not at halone
  obtain ⟨hreach, ex, hex, htype⟩ := halone
  cases h with
  | quiet active all none =>
    rw [(pending_quiet wiring delivered flow all).1] at hex
    cases hex
  | queued active all one =>
    rw [(pending_quiet wiring delivered flow all).1] at hex
    cases hex
  | working active o last none =>
    rcases pending_cases (pending_working wiring delivered flow last) with
      hpending | ⟨ack, hpending, hack⟩ | ⟨ack, fill, hpending, hack, hfill⟩
    · rw [hpending] at hex
      cases hex
    · obtain ⟨-, hdrained, -⟩ := onBook_history (s := s) delta
      rw [hreach, if_pos rfl, hpending] at hdrained
      have hnow : heard (onBook s delta).2 = [.ack o.2] := by
        rw [heard, hdrained, List.map_singleton, hack]
      refine ⟨?_, last_not_ended wiring flow fits none last hnow⟩
      rcases onBook_cases s delta with ⟨hnot, -, -⟩ |
        ⟨-, stats, book, ⟨hstate, -⟩ | ⟨req, hinactive, -, -⟩⟩
      · rw [hreach] at hnot
        cases hnot
      · rw [hstate]
        dsimp only
        rw [Strategy.drainExecs_activeOrder]
        dsimp only
        rw [hpending, List.all_cons, (clears_ack hack).2]
        simp
      · rw [active] at hinactive
        cases hinactive
    · have hlast : ex = fill := by
        rw [hpending] at hex
        exact (Option.some.inj hex).symm
      have hfilltype : fill.execType = .fill := congrArg Answer.execType hfill
      rw [hlast, hfilltype] at htype
      cases htype

/-- Every run in which acknowledgements are drained together with their fills has
one active order at most. From such a run, draining an acknowledgement alone
leaves the flag clear while the last order sent, its id still the only one of its
kind, has not ended. -/
theorem single_active_when_acks_come_with_fills (cfg : StrategyConfig F) (slots : Slots)
    (actions : List Action) (s : State F) (trace : List Event)
    (h : (machine F).Run (start cfg slots) actions s trace)
    (hcond : (machine F).StepsMeet AckWithFill (start cfg slots) actions) :
    SingleActive trace ∧
      ∀ delta, ¬ AckWithFill s (.onBook delta) → (sent trace).length < 2 ^ 64 →
        (onBook s delta).1.strategy.activeOrder = false ∧ (sent trace).length ≠ 0 ∧
          ¬ Ended (trace ++ (onBook s delta).2) ((sent trace).length - 1) := by
  obtain ⟨hphase, hsingle, hdelivered⟩ := run_phase h hcond
  obtain ⟨p, hflow⟩ := run_progress h
  refine ⟨hsingle, ?_⟩
  intro delta halone fits
  exact onBook_ack_alone hphase (run_wiring h) hdelivered hflow fits halone

end Runs

/-- On a two-sided book an acknowledgement must not be the newest pending report. -/
instance (s : State F) : ∀ a, Decidable (AckWithFill s a)
  | .onBook delta =>
      decidable_of_iff (reachesDrain s delta = true →
        (s.strategy.pendingExecs.getLast?).all (fun ex => ex.execType ≠ .ack) = true) (by
          simp only [AckWithFill, Option.all_eq_true, decide_eq_true_eq])
  | .popExec | .takeOrder _ _ | .net _ => isTrue trivial

/-! ## Mid prices 1000, 1000, 1000, 1001 -/

/-- The fourth event is 1.5 deviations above the mean: the strategy sells, and the
simulator acknowledges the order. -/
def sellAndAck : List Action :=
  [.onBook ⟨1, [⟨.buy, 990, 1⟩, ⟨.sell, 1010, 1⟩]⟩, .onBook ⟨2, []⟩, .onBook ⟨3, []⟩,
    .onBook ⟨4, [⟨.buy, 992, 1⟩]⟩, .takeOrder 0 (0, 0), .net (.oms (.send (.accepted 60))),
    .net (.simRecv 60), .net (.sim (.parse 0 0 (0, 0))), .net (.sim (.send (.accepted 76))),
    .net (.omsRecv 76), .net (.oms (.parse 0)), .popExec]

/-- Back to mid 1000, which drains the acknowledgement, then 1005: two deviations. -/
def twoMoreEvents : List Action :=
  [.onBook ⟨5, [⟨.buy, 992, 0⟩]⟩, .onBook ⟨6, [⟨.buy, 1000, 1⟩]⟩]

/-- The second order is sent while the first has only been acknowledged. -/
theorem ack_lets_second_order_out :
    ∃ s trace, (machine ℚ).Run (start .default {}) (sellAndAck ++ twoMoreEvents) s trace ∧
      (sent trace).length = 2 ∧ ¬ SingleActive trace := by
  have hrun := Machine.run_of_isSome (m := machine ℚ) (start .default {})
    (sellAndAck ++ twoMoreEvents) (by decide +kernel)
  refine ⟨_, _, hrun, by decide +kernel, ?_⟩
  intro hsingle
  have hended := hsingle 8 { reqId := 6, mdEventId := 6, side := .sell, px := 1005, qty := 1 }
    (by decide +kernel) 0 (by decide +kernel)
  obtain ⟨ex, hex, -, hterminal⟩ := hended
  have hopen : ∀ ex ∈ drained (List.take 8 (((machine ℚ).exec (start .default {})
      (sellAndAck ++ twoMoreEvents)).get (by decide +kernel)).2),
      ex.execType.terminal = false := by
    decide +kernel
  rw [hopen ex hex] at hterminal
  cases hterminal

def fillPopped : List Action :=
  [.net (.sim (.fill 0 (0, 0))), .net (.sim (.send (.accepted 76))), .net (.oms (.parse 0)),
    .net (.omsRecv 76), .net (.oms (.parse 0)), .popExec]

/-- With the fill popped as well before the next market event, the second order
waits for it. -/
theorem single_active_when_acks_come_with_fills_two_orders :
    ∃ s trace, (machine ℚ).Run (start .default {})
        (sellAndAck ++ fillPopped ++ twoMoreEvents) s trace ∧
      (sent trace).length = 2 ∧ SingleActive trace := by
  have hrun := Machine.run_of_isSome (m := machine ℚ) (start .default {})
    (sellAndAck ++ fillPopped ++ twoMoreEvents) (by decide +kernel)
  exact ⟨_, _, hrun, by decide +kernel, (single_active_when_acks_come_with_fills _ _ _ _ _ hrun
    (by decide +kernel)).1⟩

end CppCodes.Guarantees.SingleActiveOrder
