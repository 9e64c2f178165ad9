import CppCodes.Source.FrameWork.Logging

/-!
# What the logger prints

The events of a source are printed in the order of their pushes, each at most once, and
what has been accepted but not printed is in the queue. At the end the queues are empty
unless a producer, which may still be in its last iteration when `running` is false,
pushes to a source that the last `drain_once` is done with.
-/

set_option autoImplicit false

namespace CppCodes.Guarantees.LogDelivery

open CppCodes.Library CppCodes.Source.FrameWork CppCodes.Source.HftTest

variable {n : Nat}

/-- The events of a source whose push returned true. -/
def accepted (i : Fin n) (trace : List (LogAct n)) : List LogEvent :=
  trace.filterMap fun
    | .pushed j evt true => if j = i then some evt else none
    | _ => none

/-- The events of a source that have been printed. -/
def printed (i : Fin n) (trace : List (LogAct n)) : List LogEvent :=
  trace.filterMap fun
    | .printed j evt _ => if j = i then some evt else none
    | _ => none

/-- The last `drain_once` has found the source empty. -/
def Passed (s : Logging n) (i : Fin n) : Prop :=
  match s.logger with
  | .drain rest true => i ∉ rest
  | .finished => True
  | _ => False

instance (s : Logging n) (i : Fin n) : Decidable (Passed s i) := by
  unfold Passed
  split <;> infer_instance

/-- A push that the queue takes is to a source that the logger will come to. -/
def Timely (s : Logging n) : LogAction n → Prop
  | .push i evt => (SpscQueue.push (s.queues i) evt).2 = true → ¬ Passed s i
  | _ => True

instance (s : Logging n) (a : LogAction n) : Decidable (Timely s a) := by
  cases a <;> unfold Timely <;> infer_instance

section Traces

variable {i : Fin n} {trace seen : List (LogAct n)}

@[simp] theorem accepted_append :
    accepted i (trace ++ seen) = accepted i trace ++ accepted i seen := List.filterMap_append

@[simp] theorem printed_append :
    printed i (trace ++ seen) = printed i trace ++ printed i seen := List.filterMap_append

end Traces

variable {c : LogSetup} {s t : Logging c.names.length} {a : LogAction c.names.length}
  {seen : List (LogAct c.names.length)}

/-- What a step can do to the queues and the logger. -/
inductive Effect (s t : Logging c.names.length) :
    LogAction c.names.length → List (LogAct c.names.length) → Prop where
  | queuesKept {a : LogAction c.names.length} (queues : t.queues = s.queues)
      (logger : t.logger = s.logger) (quiet : ∀ i evt, a ≠ .push i evt) : Effect s t a []
  | pushed (i : Fin c.names.length) (evt : LogEvent) (taken : (SpscQueue.push (s.queues i) evt).2 = true)
      (here : (t.queues i).contents = (s.queues i).contents ++ [evt])
      (others : ∀ j, j ≠ i → t.queues j = s.queues j) (logger : t.logger = s.logger) :
      Effect s t (.push i evt) [.pushed i evt true]
  | refused (i : Fin c.names.length) (evt : LogEvent)
      (full : (SpscQueue.push (s.queues i) evt).2 = false)
      (same : ∀ j, (t.queues j).contents = (s.queues j).contents) (logger : t.logger = s.logger) :
      Effect s t (.push i evt) [.pushed i evt false]
  | tested (before : s.logger = .test)
      (after : t.logger = .drain (List.finRange c.names.length) (!s.running))
      (queues : t.queues = s.queues) : Effect s t .logger []
  | returned (final : Bool) (before : s.logger = .drain [] final)
      (after : t.logger = if final then .finished else .test) (queues : t.queues = s.queues) :
      Effect s t .logger []
  | empty (i : Fin c.names.length) (rest : List (Fin c.names.length)) (final : Bool)
      (before : s.logger = .drain (i :: rest) final) (after : t.logger = .drain rest final)
      (same : ∀ j, (t.queues j).contents = (s.queues j).contents)
      (nothing : (t.queues i).contents = []) : Effect s t .logger []
  | popped (i : Fin c.names.length) (rest : List (Fin c.names.length)) (final : Bool) (evt : LogEvent)
      (before : s.logger = .drain (i :: rest) final) (after : t.logger = s.logger)
      (here : (s.queues i).contents = evt :: (t.queues i).contents)
      (others : ∀ j, j ≠ i → t.queues j = s.queues j) :
      Effect s t .logger [.printed i evt (c.line i evt)]

theorem update_here {queues : Fin n → LogQueue} {i : Fin n} {queue : LogQueue} {l : List LogEvent}
    (h : queue.contents = l) : (Function.update queues i queue i).contents = l := by
  rw [Function.update_self, h]

theorem update_same {queues : Fin n → LogQueue} {i : Fin n} {queue : LogQueue}
    (h : queue.contents = (queues i).contents) (j : Fin n) :
    (Function.update queues i queue j).contents = (queues j).contents := by
  by_cases hj : j = i
  · rw [hj, Function.update_self, h]
  · rw [Function.update_of_ne hj]

theorem step_effect (h : (Logging.machine c).step s a = some (t, seen)) : Effect s t a seen := by
  cases a with
  | stop =>
    cases h
    exact .queuesKept rfl rfl (by simp)
  | test i =>
    cases hpc : s.producers i with
    | test =>
      simp only [Logging.machine, hpc, Option.some.injEq, Prod.mk.injEq] at h
      obtain ⟨rfl, rfl⟩ := h
      exact .queuesKept rfl rfl (by simp)
    | body =>
      simp only [Logging.machine, hpc] at h
      cases h
    | finished =>
      simp only [Logging.machine, hpc] at h
      cases h
  | endIteration i =>
    cases hpc : s.producers i with
    | body =>
      simp only [Logging.machine, hpc, Option.some.injEq, Prod.mk.injEq] at h
      obtain ⟨rfl, rfl⟩ := h
      exact .queuesKept rfl rfl (by simp)
    | test =>
      simp only [Logging.machine, hpc] at h
      cases h
    | finished =>
      simp only [Logging.machine, hpc] at h
      cases h
  | push i evt =>
    cases hpc : s.producers i with
    | body =>
      simp only [Logging.machine, hpc] at h
      obtain ⟨queue, ⟨hpush, hqueue⟩ | ⟨hpush, hqueue⟩⟩ := SpscQueue.push_cases (s.queues i) evt
      · simp only [hpush, Option.some.injEq, Prod.mk.injEq] at h
        obtain ⟨rfl, rfl⟩ := h
        exact .pushed i evt (by rw [hpush]) (update_here hqueue)
          (fun j hj => Function.update_of_ne hj _ _) rfl
      · simp only [hpush, Option.some.injEq, Prod.mk.injEq] at h
        obtain ⟨rfl, rfl⟩ := h
        exact .refused i evt (by rw [hpush]) (update_same hqueue) rfl
    | test =>
      simp only [Logging.machine, hpc] at h
      cases h
    | finished =>
      simp only [Logging.machine, hpc] at h
      cases h
  | logger =>
    replace h : Logging.loggerStep c s = some (t, seen) := h
    cases hpc : s.logger with
    | test =>
      simp only [Logging.loggerStep, hpc, Option.some.injEq, Prod.mk.injEq] at h
      obtain ⟨rfl, rfl⟩ := h
      exact .tested hpc rfl rfl
    | finished =>
      simp only [Logging.loggerStep, hpc] at h
      cases h
    | drain rest final =>
      cases rest with
      | nil =>
        simp only [Logging.loggerStep, hpc, Option.some.injEq, Prod.mk.injEq] at h
        obtain ⟨rfl, rfl⟩ := h
        exact .returned final hpc rfl rfl
      | cons i rest =>
        simp only [Logging.loggerStep, hpc] at h
        obtain ⟨queue, ⟨hpop, hqueue, hempty⟩ | ⟨evt, hpop, hqueue⟩⟩ := SpscQueue.pop_cases (s.queues i)
        · simp only [hpop, Option.some.injEq, Prod.mk.injEq] at h
          obtain ⟨rfl, rfl⟩ := h
          exact .empty i rest final hpc rfl (update_same hqueue) (update_here (hqueue.trans hempty))
        · simp only [hpop, Option.some.injEq, Prod.mk.injEq] at h
          obtain ⟨rfl, rfl⟩ := h
          have hhere : (Function.update s.queues i queue i).contents = queue.contents :=
            update_here rfl
          exact .popped i rest final evt hpc hpc.symm (hqueue.trans (congrArg (evt :: ·) hhere.symm))
            (fun j hj => Function.update_of_ne hj _ _)

/-- What was accepted has been printed, in the same order, or is in the queue. -/
def Ordered (s : Logging c.names.length) (trace : List (LogAct c.names.length)) : Prop :=
  ∀ i, accepted i trace = printed i trace ++ (s.queues i).contents

theorem Effect.ordered {trace : List (LogAct c.names.length)} (h : Ordered s trace)
    (effect : Effect s t a seen) : Ordered t (trace ++ seen) := by
  intro j
  have hbefore := h j
  cases effect with
  | queuesKept queues =>
    rw [List.append_nil, queues]
    exact hbefore
  | pushed i evt taken here others =>
    rw [accepted_append, printed_append, hbefore]
    by_cases hj : j = i
    · subst hj
      rw [here]
      simp [accepted, printed]
    · rw [others j hj]
      simp [accepted, printed, Ne.symm hj]
  | refused i evt full same =>
    rw [accepted_append, printed_append, hbefore, same j]
    simp [accepted, printed]
  | tested before after queues =>
    rw [List.append_nil, queues]
    exact hbefore
  | returned final before after queues =>
    rw [List.append_nil, queues]
    exact hbefore
  | empty i rest final before after same =>
    rw [List.append_nil, same j]
    exact hbefore
  | popped i rest final evt before after here others =>
    rw [accepted_append, printed_append, hbefore]
    by_cases hj : j = i
    · subst hj
      rw [here]
      simp [accepted, printed]
    · rw [others j hj]
      simp [accepted, printed, Ne.symm hj]

/-! ## The last drain -/

section Passed

variable {i : Fin c.names.length}

theorem passed_drain {rest : List (Fin c.names.length)} {final : Bool}
    (h : s.logger = .drain rest final) : Passed s i ↔ final = true ∧ i ∉ rest := by
  unfold Passed
  rw [h]
  cases final <;> simp

theorem passed_finished (h : s.logger = .finished) : Passed s i := by
  unfold Passed
  rw [h]
  trivial

theorem not_passed_test (h : s.logger = .test) : ¬ Passed s i := by
  unfold Passed
  rw [h]
  exact id

theorem passed_congr (h : t.logger = s.logger) : Passed t i ↔ Passed s i := by
  unfold Passed
  rw [h]

end Passed

/-- The last drain has left nothing behind. -/
def Emptied (s : Logging c.names.length) : Prop := ∀ i, Passed s i → (s.queues i).contents = []

/-- An event is in a queue that the logger does not come to again. -/
def Stranded (s : Logging c.names.length) : Prop :=
  ∃ i, Passed s i ∧ (s.queues i).contents ≠ []

theorem Effect.emptied (h : Emptied s) (timely : Timely s a) (effect : Effect s t a seen) :
    Emptied t := by
  intro j hpassed
  cases effect with
  | queuesKept queues logger =>
    rw [queues]
    exact h j ((passed_congr logger).mp hpassed)
  | pushed i evt taken here others logger =>
    have hbefore := (passed_congr logger).mp hpassed
    by_cases hj : j = i
    · subst hj
      exact absurd hbefore (timely taken)
    · rw [others j hj]
      exact h j hbefore
  | refused i evt full same logger =>
    rw [same j]
    exact h j ((passed_congr logger).mp hpassed)
  | tested before after =>
    exact absurd (List.mem_finRange j) ((passed_drain after).mp hpassed).2
  | returned final before after queues =>
    cases final with
    | false => exact absurd hpassed (not_passed_test after)
    | true =>
      rw [queues]
      exact h j ((passed_drain before).mpr ⟨rfl, List.not_mem_nil⟩)
  | empty i rest final before after same nothing =>
    by_cases hj : j = i
    · rw [hj]
      exact nothing
    · obtain ⟨hfinal, hrest⟩ := (passed_drain after).mp hpassed
      rw [same j]
      exact h j ((passed_drain before).mpr ⟨hfinal, List.not_mem_cons_of_ne_of_not_mem hj hrest⟩)
  | popped i rest final evt before after here others =>
    have hbefore := (passed_congr after).mp hpassed
    obtain ⟨-, hrest⟩ := (passed_drain before).mp hbefore
    rw [others j (List.ne_of_not_mem_cons hrest)]
    exact h j hbefore

theorem Effect.stranded (h : Stranded s) (effect : Effect s t a seen) : Stranded t := by
  obtain ⟨j, hpassed, hleft⟩ := h
  refine ⟨j, ?_⟩
  cases effect with
  | queuesKept queues logger =>
    rw [queues]
    exact ⟨(passed_congr logger).mpr hpassed, hleft⟩
  | pushed i evt taken here others logger =>
    refine ⟨(passed_congr logger).mpr hpassed, ?_⟩
    by_cases hj : j = i
    · rw [hj, here]
      exact List.append_ne_nil_of_right_ne_nil _ (List.cons_ne_nil _ _)
    · rw [others j hj]
      exact hleft
  | refused i evt full same logger =>
    rw [same j]
    exact ⟨(passed_congr logger).mpr hpassed, hleft⟩
  | tested before => exact absurd hpassed (not_passed_test before)
  | returned final before after queues =>
    obtain ⟨rfl, -⟩ := (passed_drain before).mp hpassed
    rw [queues]
    exact ⟨passed_finished after, hleft⟩
  | empty i rest final before after same =>
    obtain ⟨hfinal, hrest⟩ := (passed_drain before).mp hpassed
    rw [same j]
    exact ⟨(passed_drain after).mpr ⟨hfinal, List.not_mem_of_not_mem_cons hrest⟩, hleft⟩
  | popped i rest final evt before after here others =>
    obtain ⟨-, hrest⟩ := (passed_drain before).mp hpassed
    rw [others j (List.ne_of_not_mem_cons hrest)]
    exact ⟨(passed_congr after).mpr hpassed, hleft⟩

/-- A push that comes too late is not printed. -/
theorem Effect.stranded_of_late (late : ¬ Timely s a) (effect : Effect s t a seen) : Stranded t := by
  cases effect with
  | pushed i evt taken here others logger =>
    have hpassed : Passed s i := by
      by_contra hnot
      exact late fun _ => hnot
    refine ⟨i, (passed_congr logger).mpr hpassed, ?_⟩
    rw [here]
    exact List.append_ne_nil_of_right_ne_nil _ (List.cons_ne_nil _ _)
  | refused i evt full =>
    refine absurd (fun taken => ?_) late
    rw [full] at taken
    cases taken
  | queuesKept queues logger quiet =>
    cases a with
    | push i evt => exact absurd rfl (quiet i evt)
    | _ => exact absurd trivial late
  | tested => exact absurd trivial late
  | returned => exact absurd trivial late
  | empty => exact absurd trivial late
  | popped => exact absurd trivial late

/-! ## Whole runs -/

variable {actions : List (LogAction c.names.length)} {trace : List (LogAct c.names.length)}

theorem start_queue (i : Fin c.names.length) : ((Logging.start c).queues i).contents = [] :=
  SPSCRing.contents_empty _

theorem run_ordered (h : (Logging.machine c).Run (Logging.start c) actions s trace) :
    Ordered s trace :=
  h.invariant (I := Ordered) (fun i => by rw [start_queue]; rfl) fun hI hstep =>
    (step_effect hstep).ordered hI

theorem run_emptied (h : (Logging.machine c).Run (Logging.start c) actions s trace)
    (timely : (Logging.machine c).StepsMeet Timely (Logging.start c) actions) : Emptied s :=
  h.invariant_of_steps (I := fun s _ => Emptied s) (fun i _ => start_queue i)
    (fun hI hcond hstep => (step_effect hstep).emptied hI hcond) timely

theorem run_stranded (h : (Logging.machine c).Run (Logging.start c) actions s trace) :
    (Logging.machine c).StepsMeet Timely (Logging.start c) actions ∨ Stranded s := by
  refine h.induction (P := fun actions s _ =>
    (Logging.machine c).StepsMeet Timely (Logging.start c) actions ∨ Stranded s) (Or.inl trivial) ?_
  intro actions s trace a t seen hrun ih hstep
  rcases ih with htimely | hstranded
  · by_cases hlast : Timely s a
    · exact Or.inl ((Machine.stepsMeet_snoc_iff hrun).mpr ⟨htimely, hlast⟩)
    · exact Or.inr ((step_effect hstep).stranded_of_late hlast)
  · exact Or.inr ((step_effect hstep).stranded hstranded)

/-- The events of a source are printed in the order of their pushes. When all threads have
been joined, every event accepted has been printed exactly if none was accepted by a
queue that the last drain was done with. -/
theorem log_delivered_iff (c : LogSetup) (s : Logging c.names.length)
    (actions : List (LogAction c.names.length)) (trace : List (LogAct c.names.length))
    (h : (Logging.machine c).Run (Logging.start c) actions s trace) :
    (∀ i, printed i trace <+: accepted i trace) ∧
      (Logging.Joined s → ((∀ i, printed i trace = accepted i trace) ↔
        (Logging.machine c).StepsMeet Timely (Logging.start c) actions)) := by
  have hordered := run_ordered h
  refine ⟨fun i => ⟨_, (hordered i).symm⟩, fun hjoined => ⟨fun hall => ?_, fun htimely i => ?_⟩⟩
  · rcases run_stranded h with htimely | ⟨i, -, hleft⟩
    · exact htimely
    · have hsame := hordered i
      rw [← hall i, List.self_eq_append_right] at hsame
      exact absurd hsame hleft
  · have hempty := run_emptied h htimely i (passed_finished hjoined.2)
    rw [hordered i, hempty, List.append_nil]

/-- The logger of one source. -/
def feedOnly : LogSetup where
  start := 0
  names := ["feed"]

def feedSource : Fin feedOnly.names.length := ⟨0, by decide⟩

def dropMessage : LogEvent := ⟨"feed", "drop market evt for BTCUSDT", 2000000⟩

/-- The push is in the iteration that began before the store and the drain after it. -/
def latePush : List (LogAction feedOnly.names.length) :=
  [.test feedSource, .stop, .logger, .logger, .logger, .push feedSource dropMessage,
    .endIteration feedSource, .test feedSource]

/-- The same push before the last drain. -/
def timelyPush : List (LogAction feedOnly.names.length) :=
  [.test feedSource, .push feedSource dropMessage, .stop, .logger, .logger, .logger, .logger,
    .endIteration feedSource, .test feedSource]

instance {m : Nat} (s : Logging m) : Decidable (Logging.Joined s) := by
  unfold Logging.Joined
  infer_instance

theorem log_delivered_timelyPush :
    ∃ s trace, (Logging.machine feedOnly).Run (Logging.start feedOnly) timelyPush s trace ∧
      accepted feedSource trace = [dropMessage] ∧ ∀ i, printed i trace = accepted i trace := by
  have hrun := (Logging.machine feedOnly).run_of_isSome (Logging.start feedOnly) timelyPush
    (by decide +kernel)
  refine ⟨_, _, hrun, by decide +kernel, ?_⟩
  exact ((log_delivered_iff _ _ _ _ hrun).2 (by decide +kernel)).mpr (by decide +kernel)

/-- The push returns true and its event is never printed. -/
theorem late_push_is_lost :
    ∃ s trace, (Logging.machine feedOnly).Run (Logging.start feedOnly) latePush s trace ∧
      Logging.Joined s ∧ accepted feedSource trace = [dropMessage] ∧ printed feedSource trace = [] := by
  have hrun := (Logging.machine feedOnly).run_of_isSome (Logging.start feedOnly) latePush
    (by decide +kernel)
  exact ⟨_, _, hrun, by decide +kernel, by decide +kernel, by decide +kernel⟩

end CppCodes.Guarantees.LogDelivery
