import CppCodes.Source.HftTest.MarketDataGenerator
import CppCodes.System.Trading

/-!
# Thread A alone

The calls that `run_thread_a` makes on its strategy, `on_exec` for each report
popped and `on_book` for each market event (hft_test/src/hft_main.cpp:440-456), in
any order and with any reports, events and answers of `send_order_`. A decision is
seen with the three members that `strategy_decision` reads. The loop of
`run_thread_a` is such a run, and so is thread A's part of a run of the whole
prototype.
-/

set_option autoImplicit false

namespace CppCodes.System

open CppCodes.Library
open CppCodes.Source.HftTest

namespace ThreadA

variable (F : Type)

/-- `position_`, `avg_px_` and `active_order_`. -/
structure View where
  position : Int
  avgPx : F
  activeOrder : Bool
  deriving DecidableEq

structure State where
  strategy : Strategy F
  book : OrderBook := {}

inductive Action where
  | onExec (ex : ExecUpdate)
  | onBook (delta : BookDelta) (sendOrder : OrderRequest → Bool)

inductive Event where
  | received (ex : ExecUpdate)
  | decided (view : View F)
  | sent (req : OrderRequest)
  | applied (ex : ExecUpdate)
  deriving DecidableEq

variable {F}

def view (s : Strategy F) : View F := ⟨s.position, s.avgPx, s.activeOrder⟩

/-- The book has a spread after the delta, so `on_book` does not return early. -/
def decides (s : State F) (delta : BookDelta) : Bool := ((s.book.apply delta).spread).isSome

variable [Double F]

/-- `strategy_decision` comes first, with `send_order_` inside it, then `drain_execs`. -/
def onBook (s : State F) (delta : BookDelta) (sendOrder : OrderRequest → Bool) :
    State F × List (Event F) :=
  let (strategy, book, handed) := s.strategy.onBook s.book delta sendOrder
  let sent :=
    match handed with
    | some (req, true) => [.sent req]
    | _ => []
  let seen :=
    if decides s delta then
      .decided (view s.strategy) :: (sent ++ s.strategy.pendingExecs.map .applied)
    else []
  ({ strategy, book }, seen)

variable (F)

def machine : Machine (State F) Action (Event F) where
  step s
    | .onExec ex => some ({ s with strategy := s.strategy.onExec ex }, [.received ex])
    | .onBook delta sendOrder => some (onBook s delta sendOrder)

variable {F}

def start (cfg : StrategyConfig F) : State F where
  strategy := .init cfg

/-- The reports passed to `on_exec`, oldest first. -/
def received (trace : List (Event F)) : List ExecUpdate :=
  trace.filterMap fun
    | .received ex => some ex
    | _ => none

/-- The reports `drain_execs` has processed, oldest first. -/
def applied (trace : List (Event F)) : List ExecUpdate :=
  trace.filterMap fun
    | .applied ex => some ex
    | _ => none

/-- The requests `send_order_` accepted, oldest first. -/
def sent (trace : List (Event F)) : List OrderRequest :=
  trace.filterMap fun
    | .sent req => some req
    | _ => none

omit [Double F] in
theorem received_append (before after : List (Event F)) :
    received (before ++ after) = received before ++ received after := List.filterMap_append

omit [Double F] in
theorem applied_append (before after : List (Event F)) :
    applied (before ++ after) = applied before ++ applied after := List.filterMap_append

/-- A decision, the request it got accepted, if any, and the reports applied after it. -/
def decisionTrace (now : View F) (sent : Option OrderRequest) (execs : List ExecUpdate) :
    List (Event F) :=
  .decided now :: (sent.toList.map .sent ++ execs.map .applied)

omit [Double F] in
theorem histories_decisionTrace (now : View F) (req : Option OrderRequest)
    (execs : List ExecUpdate) :
    received (decisionTrace now req execs) = [] ∧ applied (decisionTrace now req execs) = execs ∧
      sent (decisionTrace now req execs) = req.toList := by
  have hexecs : received (execs.map (Event.applied (F := F))) = [] ∧
      applied (execs.map (Event.applied (F := F))) = execs ∧
      sent (execs.map (Event.applied (F := F))) = [] := by
    induction execs with
    | nil => exact ⟨rfl, rfl, rfl⟩
    | cons ex execs ih =>
      obtain ⟨hreceived, happlied, hsent⟩ := ih
      exact ⟨hreceived, congrArg (ex :: ·) happlied, hsent⟩
  obtain ⟨hreceived, happlied, hsent⟩ := hexecs
  cases req with
  | none => exact ⟨hreceived, happlied, hsent⟩
  | some req => exact ⟨hreceived, happlied, congrArg (req :: ·) hsent⟩

/-! ## What a step does -/

/-- Without a spread a market event changes the book alone; with one it brings the
decision, the request that was accepted, if any, and the drain. -/
inductive Effect (s u : State F) : Action → List (Event F) → Prop where
  | onExec (ex : ExecUpdate) (after : u = { s with strategy := s.strategy.onExec ex }) :
      Effect s u (.onExec ex) [.received ex]
  | returned (delta : BookDelta) (sendOrder : OrderRequest → Bool)
      (early : decides s delta = false) (after : u = { s with book := s.book.apply delta }) :
      Effect s u (.onBook delta sendOrder) []
  | decided (delta : BookDelta) (sendOrder : OrderRequest → Bool)
      (reached : decides s delta = true) (stats : RollingStats F) (req : Option OrderRequest)
      (after : u = {
        strategy := (({ s.strategy with stats } : Strategy F).afterSend req.isSome).drainExecs
        book := s.book.apply delta }) :
      Effect s u (.onBook delta sendOrder)
        (decisionTrace (view s.strategy) req s.strategy.pendingExecs)

theorem onBook_effect (s : State F) (delta : BookDelta) (sendOrder : OrderRequest → Bool) :
    Effect s (onBook s delta sendOrder).1 (.onBook delta sendOrder)
      (onBook s delta sendOrder).2 := by
  have hbook := Strategy.onBook_book s.strategy s.book delta sendOrder
  cases hspread : (s.book.apply delta).spread with
  | none =>
    have hdecides : decides s delta = false := by rw [decides, hspread]; rfl
    have hnow : onBook s delta sendOrder = ({ s with book := s.book.apply delta }, []) := by
      unfold onBook
      rw [Strategy.onBook_unreached (Or.inr hspread), hdecides]
      rfl
    rw [hnow]
    exact .returned delta sendOrder hdecides rfl
  | some spread =>
    have hdecides : decides s delta = true := by rw [decides, hspread]; rfl
    obtain ⟨mid, hmid⟩ := OrderBook.mid_of_spread (F := F) hspread
    obtain ⟨stats, ⟨hnone, hstate⟩ | ⟨req, hsome, -, hstate⟩⟩ :=
      Strategy.onBook_reached s.strategy sendOrder hmid hspread
    · have hseen : (onBook s delta sendOrder).2 =
          decisionTrace (view s.strategy) none s.strategy.pendingExecs := by
        unfold onBook
        dsimp only
        rw [hnone, hdecides]
        rfl
      rw [hseen]
      refine .decided delta sendOrder hdecides stats none ?_
      unfold onBook
      dsimp only
      rw [hstate, hbook]
      rfl
    · have hseen : (onBook s delta sendOrder).2 = decisionTrace (view s.strategy)
          (if sendOrder req then some req else none) s.strategy.pendingExecs := by
        unfold onBook
        dsimp only
        rw [hsome, hdecides]
        cases sendOrder req <;> rfl
      rw [hseen]
      refine .decided delta sendOrder hdecides stats _ ?_
      unfold onBook
      dsimp only
      rw [hstate, hbook]
      cases sendOrder req <;> rfl

theorem step_effect {s u : State F} {a : Action} {seen : List (Event F)}
    (h : (machine F).step s a = some (u, seen)) : Effect s u a seen := by
  cases a with
  | onExec ex =>
    cases h
    exact .onExec ex rfl
  | onBook delta sendOrder =>
    have hnow : onBook s delta sendOrder = (u, seen) := Option.some.inj h
    have heffect := onBook_effect s delta sendOrder
    rw [hnow] at heffect
    exact heffect

/-! ## The loop of `run_thread_a` -/

/-- What one turn takes from outside: the reports in the ring, the generator's draw
and the answer of `a_to_b.push`. -/
structure Turn where
  execs : List ExecUpdate
  increment : Int
  sendOrder : OrderRequest → Bool

def turn (f : Feed) (t : Turn) : List Action :=
  t.execs.map .onExec ++
    [.onBook (f.generator.next t.increment (UInt64.ofNat (f.events + 1))).2 t.sendOrder]

def loop : Feed → List Turn → List Action
  | _, [] => []
  | f, t :: rest => turn f t ++ loop (f.event t.increment) rest

theorem run_onExec_book {execs : List ExecUpdate} {s u : State F} {trace : List (Event F)}
    (h : (machine F).Run s (execs.map .onExec) u trace) : u.book = s.book := by
  induction execs generalizing s trace with
  | nil => rw [(Machine.run_nil_iff.mp h).1]
  | cons ex execs ih =>
    obtain ⟨t, seen, later, hstep, hrest, -⟩ := Machine.run_cons_iff.mp h
    cases step_effect hstep with
    | onExec _ after => rw [ih hrest, after]

/-- The book of thread A is the book of the generator's deltas, whatever the reports
and the answers. -/
theorem run_loop_book {turns : List Turn} {f : Feed} {s u : State F} {trace : List (Event F)}
    (h : (machine F).Run s (loop f turns) u trace) (hbook : s.book = f.book) :
    u.book = ((turns.map Turn.increment).foldl Feed.event f).book := by
  induction turns generalizing f s trace with
  | nil => rw [(Machine.run_nil_iff.mp h).1, hbook]; rfl
  | cons t rest ih =>
    rw [loop, turn, List.append_assoc] at h
    obtain ⟨v, seen, later, hexecs, hlater, -⟩ := Machine.run_append_iff.mp h
    obtain ⟨w, now, after, hstep, hrest, -⟩ := Machine.run_cons_iff.mp hlater
    have hnow : w.book = v.book.apply (f.generator.next t.increment
        (UInt64.ofNat (f.events + 1))).2 := by
      cases step_effect hstep with
      | returned _ _ _ hw => rw [hw]
      | decided _ _ _ _ _ hw => rw [hw]
    refine ih hrest ?_
    rw [hnow, run_onExec_book hexecs, hbook]
    rfl

/-! ## Thread A in the prototype -/

/-- What thread A takes part in. -/
def ofPrototype : Trading.Event → Option (Event F)
  | .sent req => some (.sent req)
  | .drained ex => some (.applied ex)
  | .net (.oms (.popped ex)) => some (.received ex)
  | .net _ => none

/-- Everything but the decisions, of which the prototype's trace says nothing. -/
def withoutDecisions : Event F → Option (Event F)
  | .decided _ => none
  | e => some e

/-- Thread A's part of the prototype's state. -/
def part (s : Trading.State F) : State F := ⟨s.strategy, s.book⟩

omit [Double F] in
theorem ofPrototype_map_net (now : List Loopback.Event) :
    (now.map .net).filterMap (ofPrototype (F := F)) =
      (OmsEngine.popped (Loopback.omsTrace now)).map .received := by
  induction now with
  | nil => rfl
  | cons e now ih =>
    cases e with
    | oms e =>
      cases e with
      | popped ex => exact congrArg (.received ex :: ·) ih
      | _ => exact ih
    | _ => exact ih

omit [Double F] in
theorem ofPrototype_map_drained (execs : List ExecUpdate) :
    (execs.map .drained).filterMap (ofPrototype (F := F)) =
      (execs.map .applied).filterMap withoutDecisions := by
  induction execs with
  | nil => rfl
  | cons ex execs ih => exact congrArg (.applied ex :: ·) ih

theorem onBook_part (s : Trading.State F) (delta : BookDelta) :
    (onBook (part s) delta (Trading.pushOrder s)).1 = part (Trading.onBook s delta).1 ∧
      (Trading.onBook s delta).2.filterMap ofPrototype =
        (onBook (part s) delta (Trading.pushOrder s)).2.filterMap withoutDecisions := by
  refine ⟨rfl, ?_⟩
  cases hspread : (s.book.apply delta).spread with
  | none =>
    have hdecides : decides (part s) delta = false := by rw [decides, part, hspread]; rfl
    have hreach : Trading.reachesDrain s delta = false := by
      rw [Trading.reachesDrain, hspread]
      exact Bool.and_false _
    unfold Trading.onBook onBook
    dsimp only
    rw [part, Strategy.onBook_unreached (Or.inr hspread), hreach]
    rw [part] at hdecides
    rw [hdecides]
    rfl
  | some spread =>
    obtain ⟨mid, hmid⟩ := OrderBook.mid_of_spread (F := F) hspread
    have hdecides : decides (part s) delta = true := by rw [decides, part, hspread]; rfl
    have hreach : Trading.reachesDrain s delta = true := by
      rw [Trading.reachesDrain, hspread, hmid]
      rfl
    unfold Trading.onBook onBook
    dsimp only
    rw [hreach, hdecides, if_pos rfl, if_pos rfl, List.filterMap_append, ofPrototype_map_drained,
      List.filterMap_cons_none rfl, List.filterMap_append]
    congr 1
    unfold part
    dsimp only
    cases (s.strategy.onBook s.book delta (Trading.pushOrder s)).2.2 with
    | none => rfl
    | some handed =>
      obtain ⟨req, accepted⟩ := handed
      cases accepted <;> rfl

/-- Thread A's part of a run of the prototype is a run of thread A. -/
theorem run_part {cfg : StrategyConfig F} {slots : Trading.Slots} {actions : List Trading.Action}
    {s : Trading.State F} {trace : List Trading.Event}
    (h : (Trading.machine F).Run (Trading.start cfg slots) actions s trace) :
    ∃ actions' trace', (machine F).Run (start cfg) actions' (part s) trace' ∧
      trace.filterMap ofPrototype = trace'.filterMap withoutDecisions := by
  have hsim : ∃ actions' own trace', (machine F).Run (start cfg) actions' own trace' ∧
      own = part s ∧ trace.filterMap ofPrototype = trace'.filterMap withoutDecisions := by
    refine h.simulation ofPrototype withoutDecisions (R := fun s own => own = part s) rfl ?_
    intro t own a u seen hown hstep
    subst hown
    have hidle : ∀ {now : List Loopback.Event}, seen = now.map .net → u.strategy = t.strategy →
        u.book = t.book → OmsEngine.popped (Loopback.omsTrace now) = [] →
        ∃ actions' own' seen', (machine F).Run (part t) actions' own' seen' ∧ own' = part u ∧
          seen.filterMap ofPrototype = seen'.filterMap withoutDecisions := by
      intro now hseen hstrategy hbook hpopped
      refine ⟨[], part t, [], Machine.Run.nil _, ?_, ?_⟩
      · rw [part, part, hstrategy, hbook]
      · rw [hseen, ofPrototype_map_net, hpopped]
        rfl
    cases Trading.step_effect hstep with
    | onBook delta after =>
      obtain ⟨hstate, hseen⟩ := onBook_part t delta
      refine ⟨[.onBook delta (Trading.pushOrder t)], _, _, Machine.Run.single rfl, ?_, hseen⟩
      rw [after]
      exact hstate
    | popExec now step strategy inbound =>
      have hbook := Trading.step_book hstep (by simp)
      obtain ⟨-, hpopped⟩ := Loopback.step_history step
      rw [Loopback.popExec_seen step] at strategy
      unfold OmsEngine.poppedBy at hpopped
      cases hfound : (t.net.oms.engine.outbound.pop).2 with
      | none =>
        rw [hfound] at strategy hpopped
        exact hidle rfl strategy hbook hpopped
      | some ex =>
        rw [hfound] at strategy hpopped
        refine ⟨[.onExec ex], _, _, Machine.Run.single rfl, ?_, ?_⟩
        · rw [part, part, strategy, hbook]
          rfl
        · rw [ofPrototype_map_net, hpopped]
          rfl
    | takeOrder now gaps req during pop step strategy =>
      exact hidle rfl strategy (Trading.step_book hstep (by simp)) (Loopback.step_history step).2
    | net a now may step strategy inbound =>
      refine hidle rfl strategy (Trading.step_book hstep (by simp)) ?_
      rw [(Loopback.step_history step).2]
      cases a with
      | oms a => cases a <;> first | rfl | cases may
      | _ => rfl
  obtain ⟨actions', own, trace', hrun, rfl, hseen⟩ := hsim
  exact ⟨actions', trace', hrun, hseen⟩

end ThreadA

end CppCodes.System
