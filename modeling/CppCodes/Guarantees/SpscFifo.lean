import CppCodes.Source.FrameWork.SpscQueue

/-!
# The SPSC rings are bounded FIFO queues under every interleaving

One producer and one consumer each work on a possibly stale copy of the other's
index. `StepsOk` records what those copies still guarantee: the producer has seen
its own head and, past the full check, a tail that the real one can only run away
from; symmetrically for the consumer. `step_effect` reads every atomic access as
its effect on the queued elements, and linearizability, conservation and the
separation of the two slots follow from the effects alone.
-/

set_option autoImplicit false

namespace CppCodes.Guarantees.SpscFifo

open CppCodes.Library CppCodes.Source.HftTest CppCodes.Source.FrameWork
open SPSCRing (PushPc PopPc State Action Event next capacity accepted popped)

variable {T A : Type} {k : Nat}

/-- What a push knows about the ring at each of its program points. -/
def PushOk (r : SPSCRing T k) : PushPc T k → Prop
  | .idle => True
  | .loadedHead _ head => head = r.head
  | .checked _ head nextHead => head = r.head ∧ nextHead = next head ∧ nextHead ≠ r.tail
  | .written v head nextHead =>
      head = r.head ∧ nextHead = next head ∧ nextHead ≠ r.tail ∧ r.data head = v

def PopOk (r : SPSCRing T k) : PopPc T A k → Prop
  | .idle => True
  | .loadedTail _ tail => tail = r.tail
  | .checked _ tail => tail = r.tail ∧ tail ≠ r.head
  | .read _ tail v => tail = r.tail ∧ tail ≠ r.head ∧ v = r.data tail

structure StepsOk (s : State T A k) : Prop where
  producer : PushOk s.ring s.producer
  consumer : PopOk s.ring s.consumer

/-- The consumer's store cannot make the ring full. -/
theorem PushOk.advance_tail {r : SPSCRing T k} {pc : PushPc T k} (h : PushOk r pc)
    (hne : r.tail ≠ r.head) : PushOk { r with tail := next r.tail } pc := by
  have hroom : ∀ head : Fin (2 ^ k), head = r.head → next head ≠ next r.tail := by
    intro head he hn
    rw [SPSCRing.next_eq_advance, SPSCRing.next_eq_advance] at hn
    exact hne (by rw [← he]; exact (Circular.advance_injective hn).symm)
  cases pc with
  | idle => trivial
  | loadedHead v head => exact h
  | checked v head nextHead =>
    obtain ⟨hh, hn, -⟩ := h
    exact ⟨hh, hn, by rw [hn]; exact hroom head hh⟩
  | written v head nextHead =>
    obtain ⟨hh, hn, -, hv⟩ := h
    exact ⟨hh, hn, by rw [hn]; exact hroom head hh, hv⟩

/-- Writing the head slot does not touch the slot being popped. -/
theorem PopOk.write_head {r : SPSCRing T k} {pc : PopPc T A k} (h : PopOk r pc) (v : T) :
    PopOk { r with data := Function.update r.data r.head v } pc := by
  cases pc with
  | idle => trivial
  | loadedTail arg tail => exact h
  | checked arg tail => exact h
  | read arg tail w =>
    obtain ⟨ht, hne, hw⟩ := h
    exact ⟨ht, hne, by rw [hw]; exact (Function.update_of_ne hne _ _).symm⟩

/-- The producer's store cannot make the ring empty. -/
theorem PopOk.advance_head {r : SPSCRing T k} {pc : PopPc T A k} (h : PopOk r pc)
    (hroom : next r.head ≠ r.tail) : PopOk { r with head := next r.head } pc := by
  cases pc with
  | idle => trivial
  | loadedTail arg tail => exact h
  | checked arg tail =>
    obtain ⟨ht, -⟩ := h
    exact ⟨ht, by rw [ht]; exact Ne.symm hroom⟩
  | read arg tail w =>
    obtain ⟨ht, -, hw⟩ := h
    exact ⟨ht, by rw [ht]; exact Ne.symm hroom, hw⟩

/-- The value a push in progress carries. -/
def pushing (s : State T A k) : Option T :=
  match s.producer with
  | .idle => none
  | .loadedHead v _ | .checked v _ _ | .written v _ _ => some v

/-- The argument of a pop in progress. -/
def popping (s : State T A k) : Option A :=
  match s.consumer with
  | .idle => none
  | .loadedTail arg _ | .checked arg _ | .read arg _ _ => some arg

/-- What a step does to the queued elements and to the calls in progress. -/
inductive Effect (s u : State T A k) : List (Event T A) → Prop
  | internal (same : u.ring.contents = s.ring.contents) (push : pushing u = pushing s)
      (pop : popping u = popping s) : Effect s u []
  | pushCall (v : T) (same : u.ring.contents = s.ring.contents) (before : pushing s = none)
      (push : pushing u = some v) (pop : popping u = popping s) : Effect s u [.pushCalled v]
  | pushFull (v : T) (same : u.ring.contents = s.ring.contents)
      (full : s.ring.contents.length = capacity k - 1) (before : pushing s = some v)
      (push : pushing u = none) (pop : popping u = popping s) : Effect s u [.pushReturned v false]
  | pushDone (v : T) (grown : u.ring.contents = s.ring.contents ++ [v])
      (room : s.ring.contents.length < capacity k - 1) (before : pushing s = some v)
      (push : pushing u = none) (pop : popping u = popping s) : Effect s u [.pushReturned v true]
  | popCall (arg : A) (same : u.ring.contents = s.ring.contents) (before : popping s = none)
      (pop : popping u = some arg) (push : pushing u = pushing s) : Effect s u [.popCalled arg]
  | popEmpty (arg : A) (empty : s.ring.contents = []) (still : u.ring.contents = [])
      (before : popping s = some arg) (pop : popping u = none) (push : pushing u = pushing s) :
      Effect s u [.popReturned arg none]
  | popDone (arg : A) (v : T) (shrunk : s.ring.contents = v :: u.ring.contents)
      (before : popping s = some arg) (pop : popping u = none) (push : pushing u = pushing s) :
      Effect s u [.popReturned arg (some v)]

theorem room_of_next_ne {r : SPSCRing T k} (h : next r.head ≠ r.tail) :
    r.contents.length < capacity k - 1 := by
  have hlt := r.contents_length_lt
  have hne := mt r.contents_full_iff.mp h
  omega

/-- Every atomic access keeps what both calls know and has one of the effects. -/
theorem step_effect {s u : State T A k} {a : Action T A} {seen : List (Event T A)}
    (h : StepsOk s) (hstep : (SPSCRing.machine T A k).step s a = some (u, seen)) :
    StepsOk u ∧ Effect s u seen := by
  obtain ⟨ring, producer, consumer⟩ := s
  obtain ⟨hpush, hpop⟩ := h
  dsimp only at hpush hpop
  cases a with
  | pushLoadHead v =>
    cases producer with
    | idle =>
      simp only [SPSCRing.machine, Option.some.injEq, Prod.mk.injEq] at hstep
      obtain ⟨rfl, rfl⟩ := hstep
      exact ⟨⟨rfl, hpop⟩, .pushCall v rfl rfl rfl rfl⟩
    | _ => cases hstep
  | pushLoadTail =>
    cases producer with
    | loadedHead v head =>
      have hh : head = ring.head := hpush
      subst hh
      simp only [SPSCRing.machine] at hstep
      split at hstep
      · next hfull =>
        simp only [Option.some.injEq, Prod.mk.injEq] at hstep
        obtain ⟨rfl, rfl⟩ := hstep
        exact ⟨⟨trivial, hpop⟩, .pushFull v rfl (ring.contents_full_iff.mpr hfull) rfl rfl rfl⟩
      · next hroom =>
        simp only [Option.some.injEq, Prod.mk.injEq] at hstep
        obtain ⟨rfl, rfl⟩ := hstep
        exact ⟨⟨⟨rfl, rfl, hroom⟩, hpop⟩, .internal rfl rfl rfl⟩
    | _ => cases hstep
  | pushWrite =>
    cases producer with
    | checked v head nextHead =>
      obtain ⟨rfl, rfl, hroom⟩ := hpush
      simp only [SPSCRing.machine, Option.some.injEq, Prod.mk.injEq] at hstep
      obtain ⟨rfl, rfl⟩ := hstep
      exact ⟨⟨⟨rfl, rfl, hroom, Function.update_self ..⟩, hpop.write_head v⟩,
        .internal (ring.contents_write_head v) rfl rfl⟩
    | _ => cases hstep
  | pushStoreHead =>
    cases producer with
    | written v head nextHead =>
      obtain ⟨rfl, rfl, hroom, rfl⟩ := hpush
      simp only [SPSCRing.machine, Option.some.injEq, Prod.mk.injEq] at hstep
      obtain ⟨rfl, rfl⟩ := hstep
      exact ⟨⟨trivial, hpop.advance_head hroom⟩,
        .pushDone _ (ring.contents_advance_head hroom) (room_of_next_ne hroom) rfl rfl rfl⟩
    | _ => cases hstep
  | popLoadTail arg =>
    cases consumer with
    | idle =>
      simp only [SPSCRing.machine, Option.some.injEq, Prod.mk.injEq] at hstep
      obtain ⟨rfl, rfl⟩ := hstep
      exact ⟨⟨hpush, rfl⟩, .popCall arg rfl rfl rfl rfl⟩
    | _ => cases hstep
  | popLoadHead =>
    cases consumer with
    | loadedTail arg tail =>
      have ht : tail = ring.tail := hpop
      subst ht
      simp only [SPSCRing.machine] at hstep
      split at hstep
      · next hempty =>
        simp only [Option.some.injEq, Prod.mk.injEq] at hstep
        obtain ⟨rfl, rfl⟩ := hstep
        have hnil := ring.contents_eq_nil_iff.mpr hempty
        exact ⟨⟨hpush, trivial⟩, .popEmpty arg hnil hnil rfl rfl rfl⟩
      · next hne =>
        simp only [Option.some.injEq, Prod.mk.injEq] at hstep
        obtain ⟨rfl, rfl⟩ := hstep
        exact ⟨⟨hpush, ⟨rfl, hne⟩⟩, .internal rfl rfl rfl⟩
    | _ => cases hstep
  | popRead =>
    cases consumer with
    | checked arg tail =>
      obtain ⟨rfl, hne⟩ := hpop
      simp only [SPSCRing.machine, Option.some.injEq, Prod.mk.injEq] at hstep
      obtain ⟨rfl, rfl⟩ := hstep
      exact ⟨⟨hpush, ⟨rfl, hne, rfl⟩⟩, .internal rfl rfl rfl⟩
    | _ => cases hstep
  | popStoreTail =>
    cases consumer with
    | read arg tail v =>
      obtain ⟨rfl, hne, rfl⟩ := hpop
      simp only [SPSCRing.machine, Option.some.injEq, Prod.mk.injEq] at hstep
      obtain ⟨rfl, rfl⟩ := hstep
      exact ⟨⟨hpush.advance_tail hne, trivial⟩,
        .popDone arg _ (ring.contents_advance_tail hne) rfl rfl rfl⟩
    | _ => cases hstep

/-- Both calls idle on an empty ring. -/
def start (data : Fin (2 ^ k) → T) : State T A k := { ring := SPSCRing.empty data }

theorem start_stepsOk (data : Fin (2 ^ k) → T) : StepsOk (start data : State T A k) :=
  ⟨trivial, trivial⟩

theorem run_stepsOk {data : Fin (2 ^ k) → T} {actions : List (Action T A)} {s : State T A k}
    {trace : List (Event T A)} (h : (SPSCRing.machine T A k).Run (start data) actions s trace) :
    StepsOk s :=
  h.invariant (I := fun s _ => StepsOk s) (start_stepsOk data)
    fun hI hstep => (step_effect hI hstep).1

/-- Accepted values are the popped ones followed by the queued ones. -/
theorem run_conserved {data : Fin (2 ^ k) → T} {actions : List (Action T A)} {s : State T A k}
    {trace : List (Event T A)} (h : (SPSCRing.machine T A k).Run (start data) actions s trace) :
    accepted trace = popped trace ++ s.ring.contents := by
  refine (h.invariant (I := fun s trace => StepsOk s ∧
    accepted trace = popped trace ++ s.ring.contents)
    ⟨start_stepsOk data, (SPSCRing.contents_empty data).symm⟩ ?_).2
  intro t trace a u seen hI hstep
  obtain ⟨hok, heffect⟩ := step_effect hI.1 hstep
  refine ⟨hok, ?_⟩
  have hsplit : accepted (trace ++ seen) = accepted trace ++ accepted seen ∧
      popped (trace ++ seen) = popped trace ++ popped seen :=
    ⟨List.filterMap_append, List.filterMap_append⟩
  rw [hsplit.1, hsplit.2, hI.2]
  cases heffect with
  | internal same => simp [accepted, popped, same]
  | pushCall v same => simp [accepted, popped, same]
  | pushFull v same => simp [accepted, popped, same]
  | pushDone v grown => simp [accepted, popped, grown]
  | popCall arg same => simp [accepted, popped, same]
  | popEmpty arg empty still => simp [accepted, popped, empty, still]
  | popDone arg v shrunk => simp [accepted, popped, shrunk]

/-! ## Linearizability -/

inductive Thread where
  | producer | consumer
  deriving DecidableEq

variable {R : Type}

/-- The calls and returns of the two threads, as a client sees them. -/
def view (answer : A → Option T → R) :
    Event T A → Option (SeqObject.Event Thread (BoundedQueue.Op T A) (BoundedQueue.Result R))
  | .pushCalled v => some (.call .producer (.push v))
  | .pushReturned _ accepted => some (.ret .producer (.pushed accepted))
  | .popCalled arg => some (.call .consumer (.pop arg))
  | .popReturned arg found => some (.ret .consumer (.popped (answer arg found)))

def history (answer : A → Option T → R) (trace : List (Event T A)) :
    List (SeqObject.Event Thread (BoundedQueue.Op T A) (BoundedQueue.Result R)) :=
  trace.filterMap (view answer)

abbrev QueueStatus (T A R : Type) := SeqObject.Status (BoundedQueue.Op T A) (BoundedQueue.Result R)

def callStatus {C : Type} (op : C → BoundedQueue.Op T A) : Option C → QueueStatus T A R
  | none => .idle
  | some c => .called (op c)

/-- The calls in progress, as the atomic queue keeps them. -/
def status (s : State T A k) : Thread → QueueStatus T A R
  | .producer => callStatus .push (pushing s)
  | .consumer => callStatus .pop (popping s)

/-- The atomic queue with the elements and the calls of the ring. -/
def abstraction (R : Type) (s : State T A k) :
    SeqObject.AtomicState (List T) Thread (BoundedQueue.Op T A) (BoundedQueue.Result R) :=
  ⟨s.ring.contents, status s⟩

theorem status_producer {s u : State T A k} (pop : popping u = popping s) :
    (status u : Thread → QueueStatus T A R) =
      Function.update (status s) .producer (callStatus .push (pushing u)) := by
  funext t
  cases t with
  | producer => simp [status]
  | consumer => simp [status, pop]

theorem status_consumer {s u : State T A k} (push : pushing u = pushing s) :
    (status u : Thread → QueueStatus T A R) =
      Function.update (status s) .consumer (callStatus .pop (popping u)) := by
  funext t
  cases t with
  | producer => simp [status, push]
  | consumer => simp [status]

section Simulation

variable (answer : A → Option T → R) {s u : State T A k}

/-- The atomic queue announces the call that the ring has just begun. -/
theorem simulate_call (t : Thread) (op : BoundedQueue.Op T A)
    (same : u.ring.contents = s.ring.contents)
    (before : (status s t : QueueStatus T A R) = .idle)
    (after : (status u : Thread → QueueStatus T A R) = Function.update (status s) t (.called op)) :
    ∃ actions, (BoundedQueue.object (capacity k - 1) answer).atomic.Run (abstraction R s) actions
      (abstraction R u) [.call t op] := by
  have hrun := (BoundedQueue.object (capacity k - 1) answer).run_call (s := abstraction R s) op before
  refine ⟨[.call t op], ?_⟩
  rw [show abstraction R u = { abstraction R s with
    status := Function.update (abstraction R s).status t (.called op) } by
      rw [abstraction, same, after]; rfl]
  exact hrun

/-- The call that the ring has just finished takes effect and returns. -/
theorem simulate_return (t : Thread) (op : BoundedQueue.Op T A) (result : BoundedQueue.Result R)
    (effect : (BoundedQueue.object (capacity k - 1) answer).apply s.ring.contents op =
      (u.ring.contents, result))
    (before : (status s t : QueueStatus T A R) = .called op)
    (after : (status u : Thread → QueueStatus T A R) = Function.update (status s) t .idle) :
    ∃ actions, (BoundedQueue.object (capacity k - 1) answer).atomic.Run (abstraction R s) actions
      (abstraction R u) [.ret t result] := by
  have hrun := (BoundedQueue.object (capacity k - 1) answer).run_take_ret (s := abstraction R s)
    (t := t) before
  rw [show (abstraction R s).obj = s.ring.contents from rfl, effect] at hrun
  refine ⟨[.take t, .ret t], ?_⟩
  rw [show abstraction R u = ⟨u.ring.contents, Function.update (abstraction R s).status t .idle⟩ by
    rw [abstraction, after]; rfl]
  exact hrun

/-- Every access is matched by the atomic queue: the first one of a call by its
announcement, the last one by its taking effect and returning, others by nothing. -/
theorem effect_simulated {seen : List (Event T A)} (h : Effect s u seen) :
    ∃ actions, (BoundedQueue.object (capacity k - 1) answer).atomic.Run (abstraction R s) actions
      (abstraction R u) (history answer seen) := by
  cases h with
  | internal same push pop =>
    have hstatus : (status u : Thread → QueueStatus T A R) = status s := by
      funext t
      cases t with
      | producer => simp [status, push]
      | consumer => simp [status, pop]
    refine ⟨[], ?_⟩
    rw [abstraction, abstraction, same, hstatus]
    exact Machine.Run.nil _
  | pushCall v same before push pop =>
    apply simulate_call answer .producer (.push v) same
    · simp [status, before, callStatus]
    · rw [status_producer pop, push, callStatus]
  | pushFull v same full before push pop =>
    apply simulate_return answer .producer (.push v)
    · simp [BoundedQueue.object, full, same]
    · simp [status, before, callStatus]
    · rw [status_producer pop, push, callStatus]
  | pushDone v grown room before push pop =>
    apply simulate_return answer .producer (.push v)
    · simp [BoundedQueue.object, room, grown]
    · simp [status, before, callStatus]
    · rw [status_producer pop, push, callStatus]
  | popCall arg same before pop push =>
    apply simulate_call answer .consumer (.pop arg) same
    · simp [status, before, callStatus]
    · rw [status_consumer push, pop, callStatus]
  | popEmpty arg empty still before pop push =>
    apply simulate_return answer .consumer (.pop arg)
    · simp [BoundedQueue.object, empty, still]
    · simp [status, before, callStatus]
    · rw [status_consumer push, pop, callStatus]
  | popDone arg v shrunk before pop push =>
    apply simulate_return answer .consumer (.pop arg)
    · simp [BoundedQueue.object, shrunk]
    · simp [status, before, callStatus]
    · rw [status_consumer push, pop, callStatus]

end Simulation

/-- The calls and returns of any run can be given instants, each inside its call,
at which they happen on a queue of `capacity k - 1` elements. -/
theorem run_linearizable (answer : A → Option T → R) {data : Fin (2 ^ k) → T}
    {actions : List (Action T A)} {s : State T A k} {trace : List (Event T A)}
    (h : (SPSCRing.machine T A k).Run (start data) actions s trace) :
    (BoundedQueue.object (capacity k - 1) answer).Linearizable [] (history answer trace) := by
  have hstart : abstraction R (start data : State T A k) = ⟨[], fun _ => .idle⟩ := by
    rw [abstraction, start, SPSCRing.contents_empty]
    congr 1
    funext t
    cases t <;> rfl
  have hkeep : ∀ {s t a u seen}, StepsOk s ∧ t = abstraction R s →
      (SPSCRing.machine T A k).step s a = some (u, seen) →
      ∃ actions' t' seen', (BoundedQueue.object (capacity k - 1) answer).atomic.Run t actions' t'
        seen' ∧ (StepsOk u ∧ t' = abstraction R u) ∧
        seen.filterMap (view answer) = seen'.filterMap some := by
    intro s t a u seen hR hstep
    obtain ⟨hok, rfl⟩ := hR
    obtain ⟨hok', heffect⟩ := step_effect hok hstep
    obtain ⟨actions', hrun⟩ := effect_simulated answer heffect
    exact ⟨actions', abstraction R u, history answer seen, hrun, ⟨hok', rfl⟩, by simp [history]⟩
  obtain ⟨actions', t, trace', hrun, -, htrace⟩ :=
    h.simulation (view answer) some ⟨start_stepsOk data, rfl⟩ hkeep
  rw [List.filterMap_some] at htrace
  rw [hstart] at hrun
  exact ⟨actions', t, by rwa [history, htrace]⟩

/-! ## The guarantee for both classes -/

/-- What the clients of a ring of `2 ^ k` slots may rely on in a state reached with
the given trace, and at the next access. -/
structure RefinesFifo (answer : A → Option T → R) (s : State T A k) (trace : List (Event T A)) :
    Prop where
  linearizable :
    (BoundedQueue.object (2 ^ k - 1) answer).Linearizable [] (history answer trace)
  popped_prefix : popped trace <+: accepted trace
  /-- Nothing is lost or duplicated: what was accepted and not popped is queued. -/
  conserved : accepted trace = popped trace ++ s.ring.contents
  push_full : ∀ a u v, (SPSCRing.machine T A k).step s a = some (u, [.pushReturned v false]) →
    s.ring.contents.length = 2 ^ k - 1
  pop_empty : ∀ a u arg, (SPSCRing.machine T A k).step s a = some (u, [.popReturned arg none]) →
    s.ring.contents = []
  /-- The slot about to be written is not the one about to be read. -/
  slots_apart : ∀ v head nextHead arg tail, s.producer = .checked v head nextHead →
    s.consumer = .checked arg tail → head ≠ tail

theorem run_refinesFifo (answer : A → Option T → R) {data : Fin (2 ^ k) → T}
    {actions : List (Action T A)} {s : State T A k} {trace : List (Event T A)}
    (h : (SPSCRing.machine T A k).Run (start data) actions s trace) :
    RefinesFifo answer s trace where
  linearizable := run_linearizable answer h
  popped_prefix := ⟨s.ring.contents, (run_conserved h).symm⟩
  conserved := run_conserved h
  push_full := by
    intro a u v hstep
    obtain ⟨-, heffect⟩ := step_effect (run_stepsOk h) hstep
    cases heffect with
    | pushFull v same full => exact full
  pop_empty := by
    intro a u arg hstep
    obtain ⟨-, heffect⟩ := step_effect (run_stepsOk h) hstep
    cases heffect with
    | popEmpty arg empty => exact empty
  slots_apart := by
    intro v head nextHead arg tail hp hc he
    obtain ⟨hpush, hpop⟩ := run_stepsOk h
    rw [hp] at hpush
    rw [hc] at hpop
    exact hpop.2 (he ▸ hpush.1)

/-- Both ring classes, for every capacity `2 ^ k` and every interleaving of their
accesses, are FIFO queues of one element less. -/
theorem spsc_rings_refine_fifo (T : Type) (k : Nat) (data : Fin (2 ^ k) → T) :
    (∀ actions s trace, (SPSCRing.machine T Unit k).Run (start data) actions s trace →
      RefinesFifo (fun _ found => found) s trace) ∧
    (∀ actions s trace, (SpscQueue.machine T k).Run (start data) actions s trace →
      RefinesFifo SpscQueue.answer s trace) :=
  ⟨fun _ _ _ h => run_refinesFifo _ h, fun _ _ _ h => run_refinesFifo _ h⟩

/-- Two slots, so one element: a push that overlaps a pop is refused, and the pop
still gets the first value. -/
theorem spsc_rings_refine_fifo_two_slots :
    ∃ s trace, (SPSCRing.machine Nat Unit 1).Run (start fun _ => 0)
        [.pushLoadHead 7, .pushLoadTail, .pushWrite, .pushStoreHead, .popLoadTail (),
          .pushLoadHead 8, .popLoadHead, .pushLoadTail, .popRead, .popStoreTail] s trace ∧
      popped trace = [7] ∧ RefinesFifo (fun _ found => found) s trace := by
  have hrun := Machine.run_of_isSome (m := SPSCRing.machine Nat Unit 1) (start fun _ => 0)
    [.pushLoadHead 7, .pushLoadTail, .pushWrite, .pushStoreHead, .popLoadTail (),
      .pushLoadHead 8, .popLoadHead, .pushLoadTail, .popRead, .popStoreTail] rfl
  exact ⟨_, _, hrun, rfl, (spsc_rings_refine_fifo Nat 1 fun _ => 0).1 _ _ _ hrun⟩

end CppCodes.Guarantees.SpscFifo
