import CppCodes.Guarantees.LoopWakeups

/-!
# What the order thread leaves behind

`main` calls `join` when thread A is done: `running_` becomes false, and the order thread leaves
its loop at the next test, if `send_all` lets it come there (hft_test/src/hft_main.cpp:239-242,
288-308). A turn of the loop ends with a drain of the ring, so the requests of thread A have then
all been passed on, unless `join` comes when the thread is already at the test.
-/

set_option autoImplicit false

namespace CppCodes.Guarantees.OmsShutdown

open Library
open Source.HftTest
open Source.HftTest.OmsLoop
open Guarantees.LoopWakeups

variable {s t : State} {a : Action} {trace seen : List Event}

/-! ## The requests -/

/-- What a step does with the ring. -/
inductive Traffic (s t : State) (a : Action) (seen : List Event) : Prop where
  | put (req : OrderRequest) (action : a = .push req) (ring : t.inbound.contents = s.inbound.contents ++ [req])
      (push : pushed seen = [req]) (send : sent seen = [])
  | got (req : OrderRequest) (ring : s.inbound.contents = req :: t.inbound.contents)
      (push : pushed seen = []) (send : sent seen = [req])
  | kept (ring : t.inbound.contents = s.inbound.contents) (push : pushed seen = [])
      (send : sent seen = [])

/-- The engine steps without a new order. -/
theorem traffic_oms {b : OmsEngine.Action} (hstep : omsStep s b = some (t, seen))
    (hordered : ∀ {oms es}, OmsEngine.machine.step s.oms b = some (oms, es) →
      OmsEngine.ordered es = []) : Traffic s t a seen := by
  obtain ⟨oms, es, homs, rfl, rfl⟩ := omsStep_spec hstep
  refine .kept rfl (pushed_map es) ?_
  rw [sent_map, hordered homs, List.map_nil]

theorem traffic_popOrder {now : Int64} {gaps : UInt32 × UInt32}
    (hstep : loopStep s (.popOrder now gaps) = some (t, seen)) :
    Traffic s t (.popOrder now gaps) seen ∧ ((∃ events, s.phase = .popping events ∧ t.phase = afterRing events ∧
      t.inbound.contents = []) ∨ t.phase = s.phase) := by
  dsimp only [loopStep] at hstep
  split at hstep
  · rename_i events hphase
    obtain ⟨hcontents, hhead⟩ := s.inbound.pop_spec
    cases hpop : s.inbound.pop with
    | mk inbound found =>
      rw [hpop] at hstep hcontents hhead
      cases found with
      | some req =>
        obtain ⟨oms, es, homs, rfl, rfl⟩ := omsStep_spec hstep
        have hordered := (OmsEngine.step_history homs).1
        refine ⟨.got req ?_ (pushed_map es) ?_, .inr rfl⟩
        · simpa using hcontents
        · rw [sent_map, hordered]
          rfl
      | none =>
        cases hstep
        have hsame : inbound.contents = s.inbound.contents := by simpa using hcontents.symm
        have hnone : s.inbound.contents = [] := List.head?_eq_none_iff.mp hhead.symm
        exact ⟨.kept hsame rfl rfl, .inl ⟨events, hphase, rfl, hsame.trans hnone⟩⟩
  · cases hstep

theorem traffic_loop (hstep : loopStep s a = some (t, seen)) : Traffic s t a seen := by
  cases a with
  | popOrder now gaps => exact (traffic_popOrder hstep).1
  | recv n =>
    dsimp only [loopStep] at hstep
    split at hstep
    · split at hstep
      · cases hstep
        exact .kept rfl rfl rfl
      · split at hstep
        · obtain ⟨⟨u, later⟩, hrecv, heq⟩ := Option.map_eq_some_iff.mp hstep
          cases heq
          obtain ⟨oms, es, homs, rfl, rfl⟩ := omsStep_spec hrecv
          have hordered := (OmsEngine.step_history homs).1
          have hsent : sent (es.map Event.oms) = [] := by
            rw [sent_map, hordered]
            rfl
          refine .kept rfl ?_ ?_
          · rw [← List.singleton_append, pushed_append, pushed_map]
            rfl
          · rw [← List.singleton_append, sent_append, hsent]
            rfl
        · cases hstep
    · cases hstep
  | again | epollWait _ | epollInterrupted | epollFails | recvFails =>
    dsimp only [loopStep] at hstep
    split at hstep
    · cases hstep
      exact .kept rfl rfl rfl
    · cases hstep
  | nextEvent =>
    dsimp only [loopStep] at hstep
    split at hstep
    all_goals
      cases hstep
    all_goals
      exact .kept rfl rfl rfl
  | readBell =>
    dsimp only [loopStep] at hstep
    split at hstep
    · split at hstep
      · cases hstep
        exact .kept rfl rfl rfl
      · cases hstep
        exact .kept rfl rfl rfl
    · cases hstep
  | _ => cases hstep

/-- A step of the loop is taken between two calls of the engine. -/
theorem loopStep_of_match
    (hstep : (match s.oms.pc with
      | .idle => loopStep s a
      | _ => none) = some (t, seen)) : s.oms.pc = .idle ∧ loopStep s a = some (t, seen) := by
  cases hpc : s.oms.pc with
  | idle =>
    rw [hpc] at hstep
    exact ⟨rfl, hstep⟩
  | _ => simp [hpc] at hstep

theorem step_traffic (hstep : step s a = some (t, seen)) : Traffic s t a seen := by
  cases a with
  | push req =>
    simp only [step] at hstep
    split at hstep
    · cases hstep
    · obtain ⟨-, hcontents⟩ := s.inbound.push_spec req
      cases hpush : s.inbound.push req with
      | mk inbound taken =>
        rw [hpush] at hstep hcontents
        cases taken with
        | true =>
          cases hstep
          exact .put req rfl (by simpa using hcontents) rfl rfl
        | false =>
          cases hstep
          exact .kept rfl rfl rfl
  | announce =>
    simp only [step] at hstep
    split at hstep
    · cases hstep
      exact .kept rfl rfl rfl
    · cases hstep
  | join | arrive _ | hangUp =>
    simp only [step] at hstep
    split at hstep
    · cases hstep
    · cases hstep
      exact .kept rfl rfl rfl
  | writable =>
    cases hstep
    exact .kept rfl rfl rfl
  | popExec => exact traffic_oms hstep fun homs => (OmsEngine.step_history homs).1
  | call b =>
    simp only [step] at hstep
    split at hstep
    · rename_i hb
      exact traffic_oms hstep (ordered_of_inCall hb)
    · cases hstep
  | again | epollWait _ | epollInterrupted | epollFails | nextEvent | readBell | popOrder _ _ | recv _ |
    recvFails => exact traffic_loop (loopStep_of_match hstep).2

/-- What has been pushed is sent or waits in the ring. -/
theorem requests {data : Fin (2 ^ kRingDepthLog) → ExecUpdate}
    {slots : Fin (2 ^ kRingDepthLog) → OrderRequest} {actions : List Action}
    (run : machine.Run (start data slots) actions s trace) :
    pushed trace = sent trace ++ s.inbound.contents := by
  refine run.invariant (I := fun s trace => pushed trace = sent trace ++ s.inbound.contents)
    (by simp [start, pushed, sent, omsTrace, OmsEngine.ordered]) ?_
  intro s trace a t seen before hstep
  rw [pushed_append, sent_append, before]
  cases step_traffic hstep with
  | put req action ring push send => rw [push, send, ring, List.append_nil, List.append_assoc]
  | got req ring push send => rw [push, send, ring, List.append_nil, List.append_assoc, List.singleton_append]
  | kept ring push send => rw [push, send, ring, List.append_nil, List.append_nil]

/-! ## Behind the store -/

/-- At the test, or behind the loop. -/
def pastDrain : Phase → Bool
  | .top | .stopped => true
  | _ => false

/-- Neither a push nor an `epoll_wait` that fails. -/
def quiet : Action → Bool
  | .push _ | .epollInterrupted | .epollFails => false
  | _ => true

theorem pushed_of_quiet {more : List Action} {later : List Event}
    (hquiet : ∀ a ∈ more, quiet a = true) (run : machine.Run s more t later) : pushed later = [] := by
  induction more generalizing s later with
  | nil =>
    obtain ⟨-, rfl⟩ := Machine.run_nil_iff.mp run
    rfl
  | cons a rest ih =>
    obtain ⟨u, seen, after, hstep, hrest, rfl⟩ := Machine.run_cons_iff.mp run
    rw [List.forall_mem_cons] at hquiet
    rw [pushed_append, ih hquiet.2 hrest, List.append_nil]
    cases step_traffic hstep with
    | put req action ring push send =>
      rw [action] at hquiet
      cases hquiet.1
    | got req ring push send => exact push
    | kept ring push send => exact push

/-- A step while `running_` is false. -/
structure Closing (s t : State) : Prop where
  running : t.running = false
  past : pastDrain s.phase = true → pastDrain t.phase = true ∧ t.inbound.contents = s.inbound.contents
  drained : pastDrain s.phase = false → pastDrain t.phase = true → t.inbound.contents = []

theorem closing_same (hrunning : t.running = false) (hphase : t.phase = s.phase)
    (hring : t.inbound.contents = s.inbound.contents) : Closing s t := by
  refine ⟨hrunning, fun hover => ⟨hphase ▸ hover, hring⟩, fun hnot hover => ?_⟩
  rw [hphase, hnot] at hover
  cases hover

/-- On the way through a turn. -/
theorem closing_within (hrunning : t.running = false) (hbefore : pastDrain s.phase = false)
    (hafter : pastDrain t.phase = false) : Closing s t := by
  refine ⟨hrunning, fun hover => ?_, fun _ hover => ?_⟩
  · rw [hbefore] at hover
    cases hover
  · rw [hafter] at hover
    cases hover

theorem closing_loop (hrunning : s.running = false) (hquiet : quiet a = true)
    (hstep : loopStep s a = some (t, seen)) : Closing s t := by
  cases a with
  | again =>
    dsimp only [loopStep] at hstep
    split at hstep
    · rename_i hphase
      rw [hrunning] at hstep
      cases hstep
      refine ⟨rfl, fun _ => ⟨rfl, rfl⟩, fun hnot => ?_⟩
      rw [hphase] at hnot
      cases hnot
    · cases hstep
  | epollWait socketFirst =>
    dsimp only [loopStep] at hstep
    split at hstep
    · rename_i hphase
      cases hstep
      exact closing_within hrunning (by rw [hphase]; rfl) rfl
    · cases hstep
  | recvFails =>
    dsimp only [loopStep] at hstep
    split at hstep
    · rename_i hphase
      cases hstep
      exact closing_within hrunning (by rw [hphase]; rfl) rfl
    · cases hstep
  | nextEvent =>
    dsimp only [loopStep] at hstep
    split at hstep
    · rename_i hphase
      cases hstep
      exact closing_within hrunning (by rw [hphase]; rfl) rfl
    · rename_i hphase
      cases hstep
      exact closing_within hrunning (by rw [hphase]; rfl) rfl
    · rename_i readable events hphase
      cases hstep
      refine closing_within hrunning (by rw [hphase]; rfl) ?_
      cases readable <;> rfl
    · cases hstep
  | readBell =>
    dsimp only [loopStep] at hstep
    split at hstep
    · rename_i hphase
      split at hstep
      · cases hstep
        exact closing_same hrunning rfl rfl
      · cases hstep
        exact closing_within hrunning (by rw [hphase]; rfl) rfl
    · cases hstep
  | popOrder now gaps =>
    have htraffic := (traffic_popOrder hstep).2
    have hkeep : t.running = false := by
      dsimp only [loopStep] at hstep
      split at hstep
      · cases hpop : s.inbound.pop with
        | mk inbound found =>
          rw [hpop] at hstep
          cases found with
          | some req =>
            obtain ⟨oms, es, homs, rfl, rfl⟩ := omsStep_spec hstep
            exact hrunning
          | none =>
            cases hstep
            exact hrunning
      · cases hstep
    have hbefore : pastDrain s.phase = false := by
      dsimp only [loopStep] at hstep
      split at hstep
      · rename_i hphase
        rw [hphase]
        rfl
      · cases hstep
    rcases htraffic with ⟨events, hphase, hafter, hempty⟩ | hsame
    · refine ⟨hkeep, fun hover => ?_, fun _ _ => hempty⟩
      rw [hbefore] at hover
      cases hover
    · exact closing_within hkeep hbefore (hsame ▸ hbefore)
  | recv n =>
    dsimp only [loopStep] at hstep
    split at hstep
    · rename_i hphase
      split at hstep
      · cases hstep
        refine closing_within ?_ (by rw [hphase]; rfl) rfl
        simp [hrunning]
      · split at hstep
        · obtain ⟨⟨u, later⟩, hrecv, heq⟩ := Option.map_eq_some_iff.mp hstep
          cases heq
          obtain ⟨oms, es, homs, rfl, rfl⟩ := omsStep_spec hrecv
          exact closing_same hrunning rfl rfl
        · cases hstep
    · cases hstep
  | epollInterrupted | epollFails => cases hquiet
  | _ => cases hstep

theorem closing_step (hrunning : s.running = false) (hquiet : quiet a = true)
    (hstep : step s a = some (t, seen)) : Closing s t := by
  cases a with
  | push req => cases hquiet
  | announce =>
    simp only [step] at hstep
    split at hstep
    · cases hstep
      exact closing_same hrunning rfl rfl
    · cases hstep
  | join =>
    simp only [step] at hstep
    split at hstep
    · cases hstep
    · cases hstep
      exact closing_same rfl rfl rfl
  | arrive _ | hangUp =>
    simp only [step] at hstep
    split at hstep
    · cases hstep
    · cases hstep
      exact closing_same hrunning rfl rfl
  | writable =>
    cases hstep
    exact closing_same hrunning rfl rfl
  | popExec =>
    obtain ⟨oms, es, homs, rfl, rfl⟩ := omsStep_spec hstep
    exact closing_same hrunning rfl rfl
  | call b =>
    simp only [step] at hstep
    split at hstep
    · obtain ⟨oms, es, homs, rfl, rfl⟩ := omsStep_spec hstep
      exact closing_same hrunning rfl rfl
    · cases hstep
  | again | epollWait _ | epollInterrupted | epollFails | nextEvent | readBell | popOrder _ _ | recv _ |
    recvFails => exact closing_loop hrunning hquiet (loopStep_of_match hstep).2

/-- The requests that the loop leaves. -/
theorem closing_run {more : List Action} {later : List Event} (hrunning : s.running = false)
    (hquiet : ∀ a ∈ more, quiet a = true) (run : machine.Run s more t later) :
    t.running = false ∧ (pastDrain s.phase = true → pastDrain t.phase = true) ∧ (pastDrain t.phase = true →
      t.inbound.contents = if pastDrain s.phase = true then s.inbound.contents else []) := by
  induction more generalizing s later with
  | nil =>
    obtain ⟨rfl, rfl⟩ := Machine.run_nil_iff.mp run
    exact ⟨hrunning, id, fun hover => by rw [if_pos hover]⟩
  | cons a rest ih =>
    obtain ⟨u, seen, after, hstep, hrest, rfl⟩ := Machine.run_cons_iff.mp run
    rw [List.forall_mem_cons] at hquiet
    have hnow := closing_step hrunning hquiet.1 hstep
    obtain ⟨hstopped, hover, hleft⟩ := ih hnow.running hquiet.2 hrest
    refine ⟨hstopped, fun hbefore => hover (hnow.past hbefore).1, fun hend => ?_⟩
    rw [hleft hend]
    by_cases hbefore : pastDrain s.phase = true
    · obtain ⟨hmid, hsame⟩ := hnow.past hbefore
      rw [if_pos hmid, if_pos hbefore, hsame]
    · rw [if_neg hbefore]
      by_cases hmid : pastDrain u.phase = true
      · rw [if_pos hmid]
        exact hnow.drained (Bool.not_eq_true _ ▸ hbefore) hmid
      · rw [if_neg hmid]

/-! ## The end of the loop -/

/-- Whenever the order thread comes to the end of its loop behind `join`, with thread A silent: the
requests not passed to `send_new_order` by then are those that waited in the ring when `join` came
while the thread was at its test of `running_`, or behind the loop; otherwise all have been passed
on. The thread is at the test behind a drain, but also at the start and behind an `epoll_wait` that
was interrupted. -/
theorem requests_left_at_join {data : Fin (2 ^ kRingDepthLog) → ExecUpdate}
    {slots : Fin (2 ^ kRingDepthLog) → OrderRequest} {actions : List Action}
    (run : machine.Run (start data slots) actions s trace)
    (hjoin : step s .join = some (t, seen)) {more : List Action} {u : State} {later : List Event}
    (hquiet : ∀ a ∈ more, quiet a = true) (hmore : machine.Run t more u later)
    (hstopped : u.phase = .stopped) :
    pushed trace = sent (trace ++ later) ++ if pastDrain s.phase = true then s.inbound.contents else [] := by
  have hjoined : machine.step s .join = some (t, seen) := hjoin
  simp only [step] at hjoin
  split at hjoin
  · cases hjoin
  · cases hjoin
    have hleft := (closing_run rfl hquiet hmore).2.2 (by rw [hstopped]; rfl)
    have hall := requests (run.append (Machine.Run.cons hjoined hmore))
    rw [List.nil_append, pushed_append, pushed_of_quiet hquiet hmore, List.append_nil, hleft] at hall
    exact hall

/-- A request comes behind the drain of the turn, and `join` before the test of `running_`. -/
def requestBehindDrain : List Action :=
  [.again, .epollWait false, .nextEvent, .readBell, .push {}, .popOrder 0 (0, 0),
    .call (.send (.accepted 60)), .popOrder 0 (0, 0), .announce, .push {}, .announce]

theorem requests_left_at_join_behind_drain :
    ∃ s t trace, machine.Run (start (fun _ => {}) fun _ => {}) requestBehindDrain s trace ∧
      step s .join = some (t, []) ∧
      ∃ u later, machine.Run t [.again] u later ∧ u.phase = .stopped ∧
        pushed trace = [{}, {}] ∧ sent (trace ++ later) = [{}] := by
  have hrun := Machine.run_of_isSome (m := machine) (start (fun _ => {}) fun _ => {})
    requestBehindDrain (by decide +kernel)
  have hquiet : ∀ a ∈ [Action.again], quiet a = true := by decide
  have hall := requests_left_at_join hrun rfl hquiet (Machine.Run.single rfl) rfl
  refine ⟨_, _, _, hrun, rfl, _, _, Machine.Run.single rfl, rfl, by decide +kernel, ?_⟩
  refine (List.append_cancel_right (Eq.trans ?_ hall)).symm
  decide +kernel

end CppCodes.Guarantees.OmsShutdown
