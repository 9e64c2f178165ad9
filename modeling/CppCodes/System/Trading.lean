import CppCodes.Source.HftTest.Strategy
import CppCodes.System.Delivery
import CppCodes.System.Loopback

/-!
# The whole prototype

Thread A (hft_test/src/hft_main.cpp:416-460) runs the strategy and talks to the
OMS through the two rings; the OMS talks to the simulator over TCP. The steps of
the four parties interleave freely: `onBook` is one market event, `popExec` one
`b_to_a.pop()` with its `on_exec`, `takeOrder` one `inbound_.pop()` with the start
of its `send_new_order`, and `net` any other step of the OMS or the simulator.
Thread A pops until the ring is empty before each market event; here it may stop
earlier, which only adds runs.
-/

set_option autoImplicit false

namespace CppCodes.System

open CppCodes.Library
open CppCodes.Source.HftTest

namespace Trading

variable (F : Type)

structure State where
  strategy : Strategy F
  book : OrderBook := {}
  inbound : SPSCRing OrderRequest kRingDepthLog
  net : Loopback.State

inductive Action where
  | onBook (delta : BookDelta)
  | popExec
  | takeOrder (now : Int64) (gaps : UInt32 × UInt32)
  | net (a : Loopback.Action)
  deriving DecidableEq

inductive Event where
  | sent (req : OrderRequest)
  | drained (ex : ExecUpdate)
  | net (e : Loopback.Event)
  deriving DecidableEq

/-- The steps of the OMS that thread A or the inbound ring has no part in. -/
def netMay : Loopback.Action → Bool
  | .oms (.order _ _ _) => false
  | .oms .popExec => false
  | _ => true

variable {F} [Double F]

/-- Whether `on_book` comes as far as `drain_execs`. -/
def reachesDrain (s : State F) (delta : BookDelta) : Bool :=
  ((s.book.apply delta).mid : Option F).isSome && ((s.book.apply delta).spread).isSome

/-- `a_to_b.push` in the strategy's send function. -/
def pushOrder (s : State F) (req : OrderRequest) : Bool := (s.inbound.push req).2

def onBook (s : State F) (delta : BookDelta) : State F × List Event :=
  let (strategy, book, handed) := s.strategy.onBook s.book delta (pushOrder s)
  let inbound :=
    match handed with
    | some (req, _) => (s.inbound.push req).1
    | none => s.inbound
  let sent :=
    match handed with
    | some (req, true) => [.sent req]
    | _ => []
  let drained := if reachesDrain s delta then s.strategy.pendingExecs else []
  ({ s with strategy, book, inbound }, sent ++ drained.map .drained)

/-- The report that a pop of thread A hands to `on_exec`. -/
def onPop (strategy : Strategy F) : List Loopback.Event → Strategy F
  | [.oms (.popped ex)] => strategy.onExec ex
  | _ => strategy

variable (F)

def machine : Machine (State F) Action Event where
  step s
    | .onBook delta => some (onBook s delta)
    | .popExec =>
        match Loopback.machine.step s.net (.oms .popExec) with
        | none => none
        | some (net, seen) =>
            some ({ s with net, strategy := onPop s.strategy seen }, seen.map .net)
    | .takeOrder now gaps =>
        match s.inbound.pop with
        | (_, none) => none
        | (inbound, some req) =>
            match Loopback.machine.step s.net (.oms (.order req now gaps)) with
            | none => none
            | some (net, seen) => some ({ s with net, inbound }, seen.map .net)
    | .net a =>
        if netMay a then
          match Loopback.machine.step s.net a with
          | none => none
          | some (net, seen) => some ({ s with net }, seen.map .net)
        else none

/-- What the rings' slots hold at first. -/
structure Slots where
  inbound : Fin (2 ^ kRingDepthLog) → OrderRequest := fun _ => {}
  outbound : Fin (2 ^ kRingDepthLog) → ExecUpdate := fun _ => {}

variable {F}

def start (cfg : StrategyConfig F) (slots : Slots) : State F where
  strategy := .init cfg
  inbound := .empty slots.inbound
  net := Loopback.start slots.outbound

def netTrace (trace : List Event) : List Loopback.Event :=
  trace.filterMap fun
    | .net e => some e
    | _ => none

/-- The requests `send_order_` accepted, oldest first. -/
def sent (trace : List Event) : List OrderRequest :=
  trace.filterMap fun
    | .sent req => some req
    | _ => none

/-- The reports `drain_execs` has processed, oldest first. -/
def drained (trace : List Event) : List ExecUpdate :=
  trace.filterMap fun
    | .drained ex => some ex
    | _ => none

/-- The reports thread A has popped, and the valid reports the OMS has parsed. -/
def popped (trace : List Event) : List ExecUpdate :=
  OmsEngine.popped (Loopback.omsTrace (netTrace trace))

def parsed (trace : List Event) : List ExecUpdate :=
  OmsEngine.parsed (Loopback.omsTrace (netTrace trace))

/-! ## What a step does -/

inductive Effect (s u : State F) : Action → List Event → Prop where
  | onBook (delta : BookDelta) (after : u = (onBook s delta).1) :
      Effect s u (.onBook delta) (onBook s delta).2
  | popExec (seen : List Loopback.Event)
      (step : Loopback.machine.step s.net (.oms .popExec) = some (u.net, seen))
      (strategy : u.strategy = onPop s.strategy seen) (inbound : u.inbound = s.inbound) :
      Effect s u .popExec (seen.map .net)
  | takeOrder (now : Int64) (gaps : UInt32 × UInt32) (req : OrderRequest)
      (seen : List Loopback.Event) (pop : s.inbound.pop = (u.inbound, some req))
      (step : Loopback.machine.step s.net (.oms (.order req now gaps)) = some (u.net, seen))
      (strategy : u.strategy = s.strategy) : Effect s u (.takeOrder now gaps) (seen.map .net)
  | net (a : Loopback.Action) (seen : List Loopback.Event) (may : netMay a = true)
      (step : Loopback.machine.step s.net a = some (u.net, seen))
      (strategy : u.strategy = s.strategy) (inbound : u.inbound = s.inbound) :
      Effect s u (.net a) (seen.map .net)

section Steps

variable {s u : State F} {a : Action} {trace seen : List Event}

theorem step_effect (h : (machine F).step s a = some (u, seen)) : Effect s u a seen := by
  cases a with
  | onBook delta =>
    simp only [machine, Option.some.injEq] at h
    have hstate : (onBook s delta).1 = u := congrArg Prod.fst h
    have hseen : (onBook s delta).2 = seen := congrArg Prod.snd h
    subst hseen
    exact .onBook delta hstate.symm
  | popExec =>
    simp only [machine] at h
    split at h
    · cases h
    · next net now hstep =>
      simp only [Option.some.injEq, Prod.mk.injEq] at h
      obtain ⟨rfl, rfl⟩ := h
      exact .popExec now hstep rfl rfl
  | takeOrder now gaps =>
    simp only [machine] at h
    split at h
    · cases h
    · next inbound req hpop =>
      split at h
      · cases h
      · next net during hstep =>
        simp only [Option.some.injEq, Prod.mk.injEq] at h
        obtain ⟨rfl, rfl⟩ := h
        exact .takeOrder now gaps req during hpop hstep rfl
  | net a =>
    simp only [machine] at h
    split at h
    · next hmay =>
      split at h
      · cases h
      · next net now hstep =>
        simp only [Option.some.injEq, Prod.mk.injEq] at h
        obtain ⟨rfl, rfl⟩ := h
        exact .net a now hmay hstep rfl rfl
    · cases h

/-- Only a market event changes the book. -/
theorem step_book (h : (machine F).step s a = some (u, seen)) (hnot : ∀ delta, a ≠ .onBook delta) :
    u.book = s.book := by
  cases a with
  | onBook delta => exact absurd rfl (hnot delta)
  | popExec =>
    simp only [machine] at h
    split at h
    · cases h
    · cases h
      rfl
  | takeOrder now gaps =>
    simp only [machine] at h
    split at h
    · cases h
    · split at h
      · cases h
      · cases h
        rfl
  | net a =>
    simp only [machine] at h
    split at h
    · split at h
      · cases h
      · cases h
        rfl
    · cases h

theorem netTrace_map_net (now : List Loopback.Event) : netTrace (now.map .net) = now := by
  induction now with
  | nil => rfl
  | cons e now ih => exact congrArg (e :: ·) ih

theorem sent_map_net (now : List Loopback.Event) : sent (now.map .net) = [] := by
  induction now with
  | nil => rfl
  | cons e now ih => exact ih

theorem drained_map_net (now : List Loopback.Event) : drained (now.map .net) = [] := by
  induction now with
  | nil => rfl
  | cons e now ih => exact ih

theorem netTrace_append (before after : List Event) :
    netTrace (before ++ after) = netTrace before ++ netTrace after := List.filterMap_append

theorem sent_append (before after : List Event) :
    sent (before ++ after) = sent before ++ sent after := List.filterMap_append

theorem drained_append (before after : List Event) :
    drained (before ++ after) = drained before ++ drained after := List.filterMap_append

/-- One market event, on a book without and with both sides. -/
theorem onBook_cases (s : State F) (delta : BookDelta) :
    (reachesDrain s delta = false ∧ (onBook s delta).1 = { s with book := s.book.apply delta } ∧
      (onBook s delta).2 = []) ∨
    (reachesDrain s delta = true ∧ ∃ stats book,
      ((onBook s delta).1 = { s with
          strategy := ({ s.strategy with stats } : Strategy F).drainExecs, book } ∧
        (onBook s delta).2 = s.strategy.pendingExecs.map .drained) ∨
      ∃ req, s.strategy.activeOrder = false ∧ (onBook s delta).1 = { s with
          strategy := (({ s.strategy with stats } : Strategy F).afterSend
            (pushOrder s req)).drainExecs
          book
          inbound := (s.inbound.push req).1 } ∧
        (onBook s delta).2 = (if pushOrder s req then [.sent req] else []) ++
          s.strategy.pendingExecs.map .drained) := by
  cases hmid : ((s.book.apply delta).mid : Option F) with
  | none =>
    have hreach : reachesDrain s delta = false := by rw [reachesDrain, hmid]; rfl
    refine Or.inl ⟨hreach, ?_⟩
    unfold onBook
    rw [Strategy.onBook_unreached (Or.inl hmid)]
    simp [hreach]
  | some mid =>
    cases hspread : (s.book.apply delta).spread with
    | none =>
      have hreach : reachesDrain s delta = false := by rw [reachesDrain, hmid, hspread]; rfl
      refine Or.inl ⟨hreach, ?_⟩
      unfold onBook
      rw [Strategy.onBook_unreached (Or.inr hspread)]
      simp [hreach]
    | some spread =>
      have hreach : reachesDrain s delta = true := by rw [reachesDrain, hmid, hspread]; rfl
      refine Or.inr ⟨hreach, ?_⟩
      obtain ⟨stats, ⟨hnone, hstate⟩ | ⟨req, hsome, hactive, hstate⟩⟩ :=
        Strategy.onBook_reached s.strategy (pushOrder s) hmid hspread
      · refine ⟨stats, (s.strategy.onBook s.book delta (pushOrder s)).2.1, Or.inl ?_⟩
        unfold onBook
        dsimp only
        rw [hnone, hstate, hreach]
        exact ⟨rfl, rfl⟩
      · refine ⟨stats, (s.strategy.onBook s.book delta (pushOrder s)).2.1,
          Or.inr ⟨req, hactive, ?_⟩⟩
        unfold onBook
        dsimp only
        rw [hsome, hstate, hreach]
        cases pushOrder s req <;> exact ⟨rfl, rfl⟩

/-! ## The strategy and the rings -/

/-- The requests taken and queued are those sent, and the position is what the
reports drained so far add up to. -/
structure Wiring (s : State F) (trace : List Event) : Prop where
  requests : (Loopback.orders (netTrace trace)).map Prod.fst ++ s.inbound.contents = sent trace
  heard : popped trace = drained trace ++ s.strategy.pendingExecs
  position : s.strategy.position = ((drained trace).map Strategy.signedFill).sum

theorem start_wiring (cfg : StrategyConfig F) (slots : Slots) : Wiring (start cfg slots) [] where
  requests := SPSCRing.contents_empty slots.inbound
  heard := rfl
  position := rfl

omit [Double F] in
theorem onPop_spec (strategy : Strategy F) (found : Option ExecUpdate) :
    (onPop strategy ((found.map OmsEngine.Event.popped).toList.map .oms)).pendingExecs =
        strategy.pendingExecs ++ found.toList ∧
      (onPop strategy ((found.map OmsEngine.Event.popped).toList.map .oms)).position =
        strategy.position ∧
      (onPop strategy ((found.map OmsEngine.Event.popped).toList.map .oms)).activeOrder =
        strategy.activeOrder := by
  cases found with
  | none => exact ⟨(List.append_nil _).symm, rfl, rfl⟩
  | some ex => exact ⟨rfl, rfl, rfl⟩

theorem popped_append (before after : List Event) :
    popped (before ++ after) = popped before ++ popped after := by
  simp only [popped, netTrace, Loopback.omsTrace, OmsEngine.popped, List.filterMap_append]

theorem parsed_append (before after : List Event) :
    parsed (before ++ after) = parsed before ++ parsed after := by
  simp only [parsed, netTrace, Loopback.omsTrace, OmsEngine.parsed, List.filterMap_append]

theorem drained_map_drained (execs : List ExecUpdate) : drained (execs.map .drained) = execs := by
  induction execs with
  | nil => rfl
  | cons ex execs ih => exact congrArg (ex :: ·) ih

theorem quiet_map_drained (execs : List ExecUpdate) :
    netTrace (execs.map .drained) = [] ∧ sent (execs.map .drained) = [] := by
  induction execs with
  | nil => exact ⟨rfl, rfl⟩
  | cons ex execs ih => exact ih

/-- The three histories of a market event. -/
theorem onBook_history (delta : BookDelta) :
    netTrace (onBook s delta).2 = [] ∧
      drained (onBook s delta).2 =
        (if reachesDrain s delta then s.strategy.pendingExecs else []) ∧
      (onBook s delta).1.inbound.contents = s.inbound.contents ++ sent (onBook s delta).2 := by
  rcases onBook_cases s delta with ⟨hreach, hstate, hseen⟩ |
    ⟨hreach, stats, book, ⟨hstate, hseen⟩ | ⟨req, -, hstate, hseen⟩⟩
  · rw [hreach, hstate, hseen]
    exact ⟨rfl, rfl, (List.append_nil _).symm⟩
  · obtain ⟨hnet, hsent⟩ := quiet_map_drained s.strategy.pendingExecs
    rw [hreach, hstate, hseen, hnet, hsent, drained_map_drained]
    exact ⟨rfl, rfl, (List.append_nil _).symm⟩
  · obtain ⟨hnet, hsent⟩ := quiet_map_drained s.strategy.pendingExecs
    obtain ⟨hpush, hcontents⟩ := s.inbound.push_spec req
    rw [hreach, hstate, hseen, netTrace_append, sent_append, drained_append, hnet, hsent,
      drained_map_drained]
    dsimp only
    rw [hcontents]
    unfold pushOrder
    cases (s.inbound.push req).2 with
    | false => exact ⟨rfl, rfl, (List.append_nil _).symm⟩
    | true => exact ⟨rfl, rfl, rfl⟩

/-- The position and the pending reports after a market event. -/
theorem onBook_strategy (delta : BookDelta) :
    (onBook s delta).1.strategy.position = s.strategy.position +
        ((drained (onBook s delta).2).map Strategy.signedFill).sum ∧
      s.strategy.pendingExecs =
        drained (onBook s delta).2 ++ (onBook s delta).1.strategy.pendingExecs := by
  obtain ⟨-, hdrained, -⟩ := onBook_history (s := s) delta
  rcases onBook_cases s delta with ⟨hreach, hstate, -⟩ |
    ⟨hreach, stats, book, ⟨hstate, -⟩ | ⟨req, -, hstate, -⟩⟩
  · rw [hdrained, hreach, hstate]
    exact ⟨(Int.add_zero _).symm, rfl⟩
  · rw [hdrained, hreach, hstate]
    exact ⟨Strategy.drainExecs_position _, (List.append_nil _).symm⟩
  · rw [hdrained, hreach, hstate]
    dsimp only
    rw [Strategy.drainExecs_position]
    unfold Strategy.afterSend
    cases pushOrder s req <;> exact ⟨rfl, (List.append_nil _).symm⟩

theorem step_wiring (h : Wiring s trace) (hstep : (machine F).step s a = some (u, seen)) :
    Wiring u (trace ++ seen) := by
  cases step_effect hstep with
  | onBook delta after =>
    obtain ⟨hnet, -, hcontents⟩ := onBook_history (s := s) delta
    obtain ⟨hposition, hpending⟩ := onBook_strategy (s := s) delta
    subst after
    refine ⟨?_, ?_, ?_⟩
    · rw [netTrace_append, hnet, List.append_nil, hcontents, ← List.append_assoc, h.requests,
        sent_append]
    · have hpopped : popped (onBook s delta).2 = [] := by rw [popped, hnet]; rfl
      rw [popped_append, hpopped, List.append_nil, h.heard, drained_append, List.append_assoc,
        ← hpending]
    · rw [hposition, h.position, drained_append, List.map_append, List.sum_append]
  | popExec now step strategy inbound =>
    obtain ⟨hordered, hpopped⟩ := Loopback.step_history step
    obtain ⟨hpending, hposition, -⟩ :=
      onPop_spec s.strategy (s.net.oms.engine.outbound.pop).2
    rw [Loopback.popExec_seen step] at strategy
    refine ⟨?_, ?_, ?_⟩
    · rw [netTrace_append, netTrace_map_net, Loopback.orders_append, hordered, sent_append,
        sent_map_net, List.append_nil, inbound]
      simpa [OmsEngine.orderedBy] using h.requests
    · rw [popped_append, h.heard, drained_append, drained_map_net, List.append_nil, strategy,
        hpending, ← List.append_assoc]
      congr 1
      rw [popped, netTrace_map_net, hpopped]
      rfl
    · rw [strategy, hposition, drained_append, drained_map_net, List.append_nil, h.position]
  | takeOrder now gaps req during pop step strategy =>
    obtain ⟨hordered, hpopped⟩ := Loopback.step_history step
    obtain ⟨hcontents, -⟩ := s.inbound.pop_spec
    rw [pop] at hcontents
    refine ⟨?_, ?_, ?_⟩
    · rw [netTrace_append, netTrace_map_net, Loopback.orders_append, hordered, sent_append,
        sent_map_net, List.append_nil, ← h.requests, hcontents, List.map_append,
        List.append_assoc]
      rfl
    · have hnone : popped (during.map .net) = [] := by
        rw [popped, netTrace_map_net, hpopped]
        rfl
      rw [popped_append, hnone, List.append_nil, drained_append, drained_map_net,
        List.append_nil, strategy, h.heard]
    · rw [strategy, drained_append, drained_map_net, List.append_nil, h.position]
  | net a now may step strategy inbound =>
    obtain ⟨hordered, hpopped⟩ := Loopback.step_history step
    have hnothing : Loopback.orders now = [] ∧ popped (now.map .net) = [] := by
      rw [popped, netTrace_map_net, hordered, hpopped]
      cases a with
      | oms a => cases a <;> first | exact ⟨rfl, rfl⟩ | cases may
      | _ => exact ⟨rfl, rfl⟩
    refine ⟨?_, ?_, ?_⟩
    · rw [netTrace_append, netTrace_map_net, Loopback.orders_append, hnothing.1, List.append_nil,
        sent_append, sent_map_net, List.append_nil, inbound, h.requests]
    · rw [popped_append, hnothing.2, List.append_nil, drained_append, drained_map_net,
        List.append_nil, strategy, h.heard]
    · rw [strategy, drained_append, drained_map_net, List.append_nil, h.position]

end Steps

theorem run_wiring {cfg : StrategyConfig F} {slots : Slots} {actions : List Action} {s : State F}
    {trace : List Event} (h : (machine F).Run (start cfg slots) actions s trace) :
    Wiring s trace :=
  h.invariant (start_wiring cfg slots) fun hw hstep => step_wiring hw hstep

/-- The connection's part of a run is a run of the connection. -/
theorem run_net {cfg : StrategyConfig F} {slots : Slots} {actions : List Action} {s : State F}
    {trace : List Event} (h : (machine F).Run (start cfg slots) actions s trace) :
    ∃ actions', Loopback.machine.Run (Loopback.start slots.outbound) actions' s.net
      (netTrace trace) := by
  refine h.invariant (I := fun s trace => ∃ actions', Loopback.machine.Run
    (Loopback.start slots.outbound) actions' s.net (netTrace trace))
    ⟨[], Machine.Run.nil _⟩ ?_
  intro t trace a u seen ih hstep
  obtain ⟨actions', hrun⟩ := ih
  have hone : ∀ {a' now}, Loopback.machine.step t.net a' = some (u.net, now) →
      seen = now.map .net → ∃ actions', Loopback.machine.Run (Loopback.start slots.outbound)
        actions' u.net (netTrace (trace ++ seen)) := by
    intro a' now hnet hseen
    rw [netTrace_append, hseen, netTrace_map_net]
    exact ⟨_, hrun.append (Machine.Run.single hnet)⟩
  cases step_effect hstep with
  | onBook delta after =>
    obtain ⟨hnet, -, -⟩ := onBook_history (s := t) delta
    have hsame : u.net = t.net := by
      subst after
      rfl
    rw [netTrace_append, hnet, List.append_nil, hsame]
    exact ⟨actions', hrun⟩
  | popExec now step strategy inbound => exact hone step rfl
  | takeOrder now gaps req during pop step strategy => exact hone step rfl
  | net a now may step strategy inbound => exact hone step rfl

/-! ## Runs that lose no report -/

/-- A valid report that the OMS parses finds room in the ring. -/
def NoLoss (s : State F) : Action → Prop
  | .net (.oms a) => Delivery.RoomForReport s.net.oms a
  | _ => True

instance : ∀ (s : State F) a, Decidable (NoLoss s a)
  | s, .net (.oms a) => inferInstanceAs (Decidable (Delivery.RoomForReport s.net.oms a))
  | _, .net (.omsRecv _) | _, .net (.sim _) | _, .net (.simRecv _) => isTrue trivial
  | _, .onBook _ | _, .popExec | _, .takeOrder _ _ => isTrue trivial

/-- What thread A has popped or can still pop is what the OMS has parsed. -/
def Delivered (s : State F) (trace : List Event) : Prop :=
  popped trace ++ s.net.oms.engine.outbound.contents = parsed trace

theorem net_delivered {n n' : Loopback.State} {a : Loopback.Action}
    {before now : List Loopback.Event} (h : Loopback.machine.step n a = some (n', now))
    (hd : Delivery.Delivered n.oms (Loopback.omsTrace before))
    (hroom : ∀ a', a = .oms a' → Delivery.RoomForReport n.oms a') :
    Delivery.Delivered n'.oms (Loopback.omsTrace (before ++ now)) := by
  rw [Loopback.omsTrace_append]
  rcases Loopback.step_oms h with ⟨a', ha', hstep⟩ | ⟨-, hsame, hquiet⟩
  · refine (Delivery.step_delivered hstep (le_of_eq (congrArg List.length hd))).2.mpr ⟨hd, ?_⟩
    cases a with
    | oms a =>
      cases ha'
      exact hroom _ rfl
    | omsRecv n =>
      cases ha'
      trivial
    | sim a => cases ha'
    | simRecv n => cases ha'
  · rw [hquiet, List.append_nil, hsame]
    exact hd

theorem step_delivered {s u : State F} {a : Action} {trace seen : List Event}
    (h : Delivered s trace) (hroom : NoLoss s a) (hstep : (machine F).step s a = some (u, seen)) :
    Delivered u (trace ++ seen) := by
  unfold Delivered popped parsed
  rw [netTrace_append]
  cases step_effect hstep with
  | onBook delta after =>
    obtain ⟨hnet, -, -⟩ := onBook_history (s := s) delta
    subst after
    rw [hnet, List.append_nil]
    exact h
  | popExec now step strategy inbound =>
    rw [netTrace_map_net]
    refine net_delivered step h ?_
    intro a' ha'
    cases ha'
    trivial
  | takeOrder now gaps req during pop step strategy =>
    rw [netTrace_map_net]
    refine net_delivered step h ?_
    intro a' ha'
    cases ha'
    trivial
  | net a now may step strategy inbound =>
    rw [netTrace_map_net]
    refine net_delivered step h ?_
    intro a' ha'
    subst ha'
    exact hroom

theorem start_delivered (cfg : StrategyConfig F) (slots : Slots) :
    Delivered (start cfg slots) [] := by
  have hempty : (start cfg slots).net.oms.engine.outbound.contents = [] :=
    SPSCRing.contents_empty slots.outbound
  unfold Delivered
  rw [hempty]
  rfl

theorem run_delivered {cfg : StrategyConfig F} {slots : Slots} {actions : List Action}
    {s : State F} {trace : List Event} (h : (machine F).Run (start cfg slots) actions s trace)
    (hroom : (machine F).StepsMeet NoLoss (start cfg slots) actions) : Delivered s trace :=
  h.invariant_of_steps (start_delivered cfg slots)
    (fun hd hmeet hstep => step_delivered hd hmeet hstep) hroom

end Trading

end CppCodes.System
