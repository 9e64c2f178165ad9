import CppCodes.System.ThreadA

/-!
# What a decision has seen

Thread A hands every report it pops to `on_exec` before it calls `on_book`, but
`on_exec` only buffers and `on_book` decides before it drains. A decision is taken
on the reports of earlier events; the ones popped for it are applied afterwards,
and an acknowledgement among them clears the flag of an order just sent.
-/

set_option autoImplicit false

namespace CppCodes.Guarantees.DecisionFreshness

open CppCodes.Library
open CppCodes.Source.HftTest
open CppCodes.System CppCodes.System.ThreadA

variable {F : Type} [Double F]

/-- The strategy that applies a report as soon as it receives it. -/
def replayEvent (s : Strategy F) : Event F → Strategy F
  | .received ex => s.applyExec ex
  | .sent _ => s.afterSend true
  | .decided _ | .applied _ => s

def replay (cfg : StrategyConfig F) (trace : List (Event F)) : Strategy F :=
  trace.foldl replayEvent (.init cfg)

/-- The reports that `drain_execs` does something with: those of a named kind. -/
def effective (execs : List ExecUpdate) : List ExecUpdate := execs.filter Strategy.clears

/-- Every report received has been applied, and what the decision reads is what
applying them on receipt gives. -/
def UpToDate (cfg : StrategyConfig F) (before : List (Event F)) (seen : View F) : Prop :=
  effective (applied before) = effective (received before) ∧ seen = view (replay cfg before)

/-- Every decision of the history is taken up to date. -/
def DecisionsUpToDate (cfg : StrategyConfig F) (trace : List (Event F)) : Prop :=
  ∀ k seen, (trace)[k]? = some (.decided seen) → UpToDate cfg (trace.take k) seen

/-- A market event that leads to a decision finds no report of a named kind pending. -/
def NothingPending (s : State F) : Action → Prop
  | .onExec _ => True
  | .onBook delta _ => decides s delta = true → effective s.strategy.pendingExecs = []

instance (s : State F) : ∀ a, Decidable (NothingPending s a)
  | .onExec _ => isTrue trivial
  | .onBook delta _ =>
      inferInstanceAs (Decidable (decides s delta = true →
        effective s.strategy.pendingExecs = []))

/-! ## The members a decision reads -/

/-- A report is applied to what the decision reads, whatever the rest of the strategy. -/
theorem view_applyExec {s t : Strategy F} (h : view s = view t) (ex : ExecUpdate) :
    view (s.applyExec ex) = view (t.applyExec ex) := by
  obtain ⟨hposition, havg, hactive⟩ := View.mk.inj h
  have hfill : view (s.applyFill ex) = view (t.applyFill ex) := by
    unfold Strategy.applyFill view
    dsimp only
    rw [hposition, havg, hactive]
    split
    · rfl
    · split <;> rfl
  unfold Strategy.applyExec
  cases ex.execType with
  | unnamed raw beyond => exact h
  | fill | partialFill =>
    obtain ⟨hposition', havg', -⟩ := View.mk.inj hfill
    dsimp only [view]
    rw [hposition', havg']
  | _ =>
    dsimp only [view]
    rw [hposition, havg]

theorem view_foldl_applyExec (execs : List ExecUpdate) {s t : Strategy F} (h : view s = view t) :
    view (execs.foldl Strategy.applyExec s) = view (execs.foldl Strategy.applyExec t) := by
  induction execs generalizing s t with
  | nil => exact h
  | cons ex execs ih => exact ih (view_applyExec h ex)

omit [Double F] in
theorem view_afterSend {s t : Strategy F} (h : view s = view t) (accepted : Bool) :
    view (s.afterSend accepted) = view (t.afterSend accepted) := by
  obtain ⟨hposition, havg, -⟩ := View.mk.inj h
  cases accepted with
  | false => exact h
  | true =>
    dsimp only [view, Strategy.afterSend]
    rw [if_pos rfl, if_pos rfl, hposition, havg]

/-- Reports without a named kind leave the strategy as it is. -/
theorem foldl_applyExec_ineffective {execs : List ExecUpdate} (h : effective execs = [])
    (s : Strategy F) : execs.foldl Strategy.applyExec s = s := by
  induction execs with
  | nil => rfl
  | cons ex execs ih =>
    have hall := List.filter_eq_nil_iff.mp h
    have hex : s.applyExec ex = s := by
      have hkind := hall ex List.mem_cons_self
      unfold Strategy.clears at hkind
      unfold Strategy.applyExec
      cases htype : ex.execType with
      | unnamed raw beyond => rfl
      | _ =>
        rw [htype] at hkind
        exact absurd rfl hkind
    rw [List.foldl_cons, hex]
    exact ih (List.filter_eq_nil_iff.mpr fun e he => hall e (List.mem_cons_of_mem _ he))

theorem replay_append (cfg : StrategyConfig F) (before after : List (Event F)) :
    replay cfg (before ++ after) = after.foldl replayEvent (replay cfg before) :=
  List.foldl_append

theorem foldl_replayEvent_applied (s : Strategy F) (execs : List ExecUpdate) :
    (execs.map Event.applied).foldl replayEvent s = s := by
  induction execs with
  | nil => rfl
  | cons ex execs ih => exact ih

/-! ## One step -/

theorem decisionsUpToDate_append (cfg : StrategyConfig F) (before seen : List (Event F)) :
    DecisionsUpToDate cfg (before ++ seen) ↔ DecisionsUpToDate cfg before ∧
      ∀ k now, seen[k]? = some (.decided now) → UpToDate cfg (before ++ seen.take k) now := by
  constructor
  · intro h
    refine ⟨?_, ?_⟩
    · intro k now hk
      have hlt : k < before.length := (List.getElem?_eq_some_iff.mp hk).1
      have hall := h k now (by rw [List.getElem?_append_left hlt, hk])
      rwa [List.take_append_of_le_length hlt.le] at hall
    · intro k now hk
      have hall := h (before.length + k) now (by
        rw [List.getElem?_append_right (Nat.le_add_right _ _), Nat.add_sub_cancel_left, hk])
      rwa [List.take_length_add_append] at hall
  · intro ⟨hbefore, hseen⟩ k now hk
    rcases Nat.lt_or_ge k before.length with hlt | hge
    · rw [List.getElem?_append_left hlt] at hk
      rw [List.take_append_of_le_length hlt.le]
      exact hbefore k now hk
    · obtain ⟨j, rfl⟩ := Nat.exists_eq_add_of_le hge
      rw [List.getElem?_append_right hge, Nat.add_sub_cancel_left] at hk
      rw [List.take_length_add_append]
      exact hseen j now hk

/-- A market event that leads to a decision adds that one decision to the history. -/
theorem decisionsUpToDate_decisionTrace (cfg : StrategyConfig F) (before : List (Event F))
    (now : View F) (sent : Option OrderRequest) (execs : List ExecUpdate) :
    DecisionsUpToDate cfg (before ++ decisionTrace now sent execs) ↔
      DecisionsUpToDate cfg before ∧ UpToDate cfg before now := by
  rw [decisionsUpToDate_append]
  refine and_congr_right fun _ => ?_
  constructor
  · intro h
    have hfirst := h 0 now rfl
    rwa [List.take_zero, List.append_nil] at hfirst
  · intro h k later hk
    cases k with
    | zero =>
      cases hk
      rwa [List.take_zero, List.append_nil]
    | succ k =>
      have hmem : Event.decided later ∈ sent.toList.map Event.sent ++ execs.map Event.applied :=
        List.mem_of_getElem? hk
      simp at hmem

/-- The reports received are those applied and those pending. -/
def Tracked (s : State F) (trace : List (Event F)) : Prop :=
  received trace = applied trace ++ s.strategy.pendingExecs

/-- Applying the pending reports makes up for what the strategy has not done yet. -/
def Settled (cfg : StrategyConfig F) (s : State F) (trace : List (Event F)) : Prop :=
  view (replay cfg trace) = view (s.strategy.pendingExecs.foldl Strategy.applyExec s.strategy)

section Steps

variable {cfg : StrategyConfig F} {s u : State F} {a : Action} {trace seen : List (Event F)}

theorem step_tracked (h : Tracked s trace) (hstep : (machine F).step s a = some (u, seen)) :
    Tracked u (trace ++ seen) := by
  unfold Tracked at h ⊢
  rw [received_append, applied_append, h]
  cases step_effect hstep with
  | onExec ex after =>
    rw [List.append_assoc, List.append_assoc, after]
    rfl
  | returned delta sendOrder early after =>
    rw [List.append_assoc, List.append_assoc, after]
    exact congrArg (applied trace ++ ·) (List.append_nil _)
  | decided delta sendOrder reached stats req after =>
    obtain ⟨hreceived, happlied, -⟩ :=
      histories_decisionTrace (view s.strategy) req s.strategy.pendingExecs
    rw [hreceived, happlied, after]
    rfl

/-- Of a market event the replay sees the order that was accepted and nothing else. -/
theorem replay_decisionTrace (cfg : StrategyConfig F) (trace : List (Event F)) (now : View F)
    (sent : Option OrderRequest) (execs : List ExecUpdate) :
    replay cfg (trace ++ decisionTrace now sent execs) =
      (replay cfg trace).afterSend sent.isSome := by
  rw [replay_append, decisionTrace, List.foldl_cons, List.foldl_append, foldl_replayEvent_applied]
  cases sent <;> rfl

theorem step_settled (h : Settled cfg s trace) (hnone : NothingPending s a)
    (hstep : (machine F).step s a = some (u, seen)) : Settled cfg u (trace ++ seen) := by
  unfold Settled at h ⊢
  cases step_effect hstep with
  | onExec ex after =>
    rw [replay_append, after]
    calc view (replayEvent (replay cfg trace) (.received ex))
      _ = view ((s.strategy.pendingExecs.foldl Strategy.applyExec s.strategy).applyExec ex) :=
        view_applyExec h ex
      _ = view ((s.strategy.pendingExecs ++ [ex]).foldl Strategy.applyExec s.strategy) := by
        rw [List.foldl_append]
        rfl
      _ = view ((s.strategy.onExec ex).pendingExecs.foldl Strategy.applyExec
          (s.strategy.onExec ex)) := view_foldl_applyExec _ rfl
  | returned delta sendOrder early after =>
    rw [List.append_nil, after]
    exact h
  | decided delta sendOrder reached stats req after =>
    have hquiet : effective s.strategy.pendingExecs = [] := hnone reached
    rw [foldl_applyExec_ineffective hquiet] at h
    have hpending : ∀ accepted, (({ s.strategy with stats } : Strategy F).afterSend
        accepted).pendingExecs = s.strategy.pendingExecs := by
      intro accepted
      cases accepted <;> rfl
    rw [after]
    calc view (replay cfg (trace ++ decisionTrace (view s.strategy) req s.strategy.pendingExecs))
      _ = view (s.strategy.afterSend req.isSome) := by
        rw [replay_decisionTrace]
        exact view_afterSend h _
      _ = view (({ s.strategy with stats } : Strategy F).afterSend req.isSome) :=
        view_afterSend (s := s.strategy) (t := { s.strategy with stats }) rfl _
      _ = view (({ s.strategy with stats } : Strategy F).afterSend req.isSome).drainExecs := by
        unfold Strategy.drainExecs
        rw [hpending, foldl_applyExec_ineffective hquiet]
        rfl

theorem nothingPending_iff_upToDate (htracked : Tracked s trace) (hsettled : Settled cfg s trace) :
    effective s.strategy.pendingExecs = [] ↔ UpToDate cfg trace (view s.strategy) := by
  have hsplit : effective (received trace) =
      effective (applied trace) ++ effective s.strategy.pendingExecs := by
    rw [htracked]
    exact List.filter_append ..
  unfold UpToDate
  rw [hsplit]
  constructor
  · intro hnone
    rw [hnone, hsettled, foldl_applyExec_ineffective hnone]
    exact ⟨(List.append_nil _).symm, rfl⟩
  · intro h
    exact List.self_eq_append_right.mp h.1

/-- One more step keeps the decisions up to date exactly when it meets the condition. -/
theorem step_upToDate_iff (htracked : Tracked s trace) (hsettled : Settled cfg s trace)
    (h : DecisionsUpToDate cfg trace) (hstep : (machine F).step s a = some (u, seen)) :
    DecisionsUpToDate cfg (trace ++ seen) ↔ NothingPending s a := by
  cases step_effect hstep with
  | onExec ex after =>
    rw [decisionsUpToDate_append]
    refine ⟨fun _ => trivial, fun _ => ⟨h, ?_⟩⟩
    intro k now hk
    cases k with
    | zero => cases hk
    | succ k => cases hk
  | returned delta sendOrder early after =>
    rw [List.append_nil]
    refine ⟨fun _ hreached => ?_, fun _ => h⟩
    rw [early] at hreached
    cases hreached
  | decided delta sendOrder reached stats req after =>
    rw [decisionsUpToDate_decisionTrace, ← nothingPending_iff_upToDate htracked hsettled]
    exact ⟨fun hboth _ => hboth.2, fun hnone => ⟨h, hnone reached⟩⟩

end Steps

/-! ## Whole runs -/

theorem run_tracked {cfg : StrategyConfig F} {actions : List Action} {s : State F}
    {trace : List (Event F)} (h : (machine F).Run (start cfg) actions s trace) : Tracked s trace := by
  refine h.invariant (I := fun s trace => Tracked s trace) ?_ ?_
  · exact rfl
  · exact fun htracked hstep => step_tracked htracked hstep

theorem run_settled {cfg : StrategyConfig F} {actions : List Action} {s : State F}
    {trace : List (Event F)} (h : (machine F).Run (start cfg) actions s trace)
    (hnone : (machine F).StepsMeet NothingPending (start cfg) actions) : Settled cfg s trace := by
  refine h.invariant_of_steps (I := fun s trace => Settled cfg s trace) ?_ ?_ hnone
  · exact rfl
  · exact fun hsettled hmeet hstep => step_settled hsettled hmeet hstep

/-- Every decision of a run is taken up to date exactly when no market event that
leads to a decision finds a report of a named kind pending. -/
theorem decisions_up_to_date_iff (cfg : StrategyConfig F) (actions : List Action) (s : State F)
    (trace : List (Event F)) (h : (machine F).Run (start cfg) actions s trace) :
    DecisionsUpToDate cfg trace ↔
      (machine F).StepsMeet NothingPending (start cfg) actions := by
  refine h.induction (P := fun actions _ trace => DecisionsUpToDate cfg trace ↔
    (machine F).StepsMeet NothingPending (start cfg) actions) ?_ ?_
  · exact ⟨fun _ => trivial, fun _ k now hk => by cases hk⟩
  · intro actions t trace a u seen hrun ih hstep
    rw [Machine.stepsMeet_snoc_iff hrun]
    constructor
    · intro hall
      have hbefore := ((decisionsUpToDate_append cfg trace seen).mp hall).1
      have hmeet := ih.mp hbefore
      exact ⟨hmeet, (step_upToDate_iff (run_tracked hrun) (run_settled hrun hmeet) hbefore
        hstep).mp hall⟩
    · intro ⟨hmeet, hlast⟩
      exact (step_upToDate_iff (run_tracked hrun) (run_settled hrun hmeet) (ih.mpr hmeet)
        hstep).mpr hlast

/-! ## Mid prices 1000, 1000, 1000, 1001, 1000, 1005 -/

/-- The fourth event is 1.5 deviations above the mean, so the strategy sells. -/
def firstSell : List Action :=
  [.onBook ⟨1, [⟨.buy, 990, 1⟩, ⟨.sell, 1010, 1⟩]⟩ fun _ => true, .onBook ⟨2, []⟩ fun _ => true,
    .onBook ⟨3, []⟩ fun _ => true, .onBook ⟨4, [⟨.buy, 992, 1⟩]⟩ fun _ => true]

/-- Its acknowledgement arrives before the fifth event and its fill before the sixth. -/
def reportsBetween : List Action :=
  [.onExec { clOrdId := 1, execType := .ack }, .onBook ⟨5, [⟨.buy, 992, 0⟩]⟩ fun _ => true,
    .onExec { clOrdId := 1, execType := .fill, fillPx := 1001, fillQty := 1 },
    .onBook ⟨6, [⟨.buy, 1000, 1⟩]⟩ fun _ => true]

/-- The sixth event sells again from a position of zero, although the fill that
makes it -1, the limit, has been received. -/
theorem decision_misses_received_fill :
    ∃ s trace, (machine ℚ).Run (start .default) (firstSell ++ reportsBetween) s trace ∧
      (trace)[9]? = some (.decided ⟨0, 0, false⟩) ∧
      (trace)[10]? =
        some (.sent { reqId := 6, mdEventId := 6, side := .sell, px := 1005, qty := 1 }) ∧
      (replay .default (trace.take 9)).position = -1 ∧ ¬ DecisionsUpToDate .default trace := by
  have hrun := Machine.run_of_isSome (m := machine ℚ) (start .default)
    (firstSell ++ reportsBetween) (by decide +kernel)
  refine ⟨_, _, hrun, by decide +kernel, by decide +kernel, by decide +kernel, ?_⟩
  intro hall
  have hview := (hall 9 ⟨0, 0, false⟩ (by decide +kernel)).2
  revert hview
  decide +kernel

/-- Up to the first report every decision is up to date, its own order included. -/
theorem decisions_up_to_date_iff_first_sell :
    ∃ s trace, (machine ℚ).Run (start .default)
        (firstSell ++ [.onExec { clOrdId := 1, execType := .ack }]) s trace ∧
      (sent trace).length = 1 ∧ DecisionsUpToDate .default trace := by
  have hrun := Machine.run_of_isSome (m := machine ℚ) (start .default)
    (firstSell ++ [.onExec { clOrdId := 1, execType := .ack }]) (by decide +kernel)
  exact ⟨_, _, hrun, by decide +kernel,
    (decisions_up_to_date_iff _ _ _ _ hrun).mpr (by decide +kernel)⟩

end CppCodes.Guarantees.DecisionFreshness
