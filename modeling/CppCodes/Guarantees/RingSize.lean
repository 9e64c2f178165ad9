import CppCodes.Guarantees.SpscFifo
import CppCodes.Source.HftTest.SpscSize

/-!
# What a call of `size` returns

Only the producer moves `head_`, and only the consumer `tail_`. So of the two indices a
call loads, one stays where it is if the caller is the producer or the consumer, and the
two belong together at the moment the other one is loaded. A third thread can load a
head from before a push and a tail from behind the pops after it.
-/

set_option autoImplicit false

namespace CppCodes.Guarantees.RingSize

open CppCodes.Library CppCodes.Source.HftTest CppCodes.Source.FrameWork
open SPSCRing (State Action Event Caller SizePc Observed ObservedAction ObservedEvent observed count
  capacity)

variable {T A : Type} {k : Nat}

def start (data : Fin (2 ^ k) → T) : Observed T A k := { queue := SpscFifo.start data }

/-- Between the two loads, no pop stores the tail after a push has stored the head. -/
def NoPopBehindPush (between : List (Action T A)) : Prop :=
  between.Pairwise fun a b => ¬ (a = .pushStoreHead ∧ b = .popStoreTail)

/-- The steps of a call of `size` from its begin to its second load, with the steps of the
queue that come in between. -/
def callSteps (first second : List (Action T A)) : List (ObservedAction T A) :=
  first.map .queue ++ .sizeLoadHead :: second.map .queue

/-- Whenever a call of `size` returns, and `cond` holds of its caller and of the steps
between its loads, the ring held as many elements as it returns at an instant of the call. -/
def Exact (T A : Type) (k : Nat) (formula : Fin (2 ^ k) → Fin (2 ^ k) → Nat)
    (cond : Caller → List (Action T A) → Prop) : Prop :=
  ∀ (data : Fin (2 ^ k) → T) (before : List (ObservedAction T A)) (caller : Caller)
    (first second : List (Action T A)) (elements : Nat) (s : Observed T A k)
    (trace : List (ObservedEvent T A)),
    (observed T A k formula).Run (start data)
      (before ++ .sizeCall caller :: (callSteps first second ++ [.sizeLoadTail])) s
      (trace ++ [.sizeReturned caller elements]) →
    cond caller second →
    ∃ during rest t seen, callSteps first second = during ++ rest ∧
      (observed T A k formula).Run (start data) (before ++ .sizeCall caller :: during) t seen ∧
      t.queue.ring.contents.length = elements

section Steps

variable {formula : Fin (2 ^ k) → Fin (2 ^ k) → Nat} {s t : Observed T A k}
  {q r : State T A k} {actions : List (Action T A)}

/-- Only the store of a push moves the head, only that of a pop the tail. -/
theorem step_indices {a : Action T A} {seen : List (Event T A)}
    (h : (SPSCRing.machine T A k).step q a = some (r, seen)) :
    (a ≠ .pushStoreHead → r.ring.head = q.ring.head) ∧
      (a ≠ .popStoreTail → r.ring.tail = q.ring.tail) := by
  cases a with
  | pushStoreHead =>
    simp only [SPSCRing.machine] at h
    split at h
    · cases h
      exact ⟨fun hne => absurd rfl hne, fun _ => rfl⟩
    · cases h
  | popStoreTail =>
    simp only [SPSCRing.machine] at h
    split at h
    · cases h
      exact ⟨fun _ => rfl, fun hne => absurd rfl hne⟩
    · cases h
  | pushLoadTail =>
    simp only [SPSCRing.machine] at h
    split at h
    · split at h
      · cases h
        exact ⟨fun _ => rfl, fun _ => rfl⟩
      · cases h
        exact ⟨fun _ => rfl, fun _ => rfl⟩
    · cases h
  | popLoadHead =>
    simp only [SPSCRing.machine] at h
    split at h
    · split at h
      · cases h
        exact ⟨fun _ => rfl, fun _ => rfl⟩
      · cases h
        exact ⟨fun _ => rfl, fun _ => rfl⟩
    · cases h
  | _ =>
    simp only [SPSCRing.machine] at h
    split at h
    · cases h
      exact ⟨fun _ => rfl, fun _ => rfl⟩
    · cases h

theorem run_head {seen : List (Event T A)} (h : (SPSCRing.machine T A k).Run q actions r seen)
    (hnone : Action.pushStoreHead ∉ actions) : r.ring.head = q.ring.head :=
  h.unchanged (f := fun q => q.ring.head) (fun hstep hne => (step_indices hstep).1 hne) hnone

theorem run_tail {seen : List (Event T A)} (h : (SPSCRing.machine T A k).Run q actions r seen)
    (hnone : Action.popStoreTail ∉ actions) : r.ring.tail = q.ring.tail :=
  h.unchanged (f := fun q => q.ring.tail) (fun hstep hne => (step_indices hstep).2 hne) hnone

/-- Steps of the queue leave the call where it is, and are not steps of its caller. -/
theorem run_queue {seen : List (ObservedEvent T A)}
    (h : (observed T A k formula).Run s (actions.map .queue) t seen) :
    t.call = s.call ∧ (∀ a ∈ actions, s.call.caller ≠ some a.thread) ∧
      ∃ events, (SPSCRing.machine T A k).Run s.queue actions t.queue events := by
  induction actions generalizing s seen with
  | nil =>
    obtain ⟨rfl, -⟩ := Machine.run_nil_iff.mp h
    exact ⟨rfl, by simp, [], Machine.Run.nil _⟩
  | cons a rest ih =>
    obtain ⟨u, now, later, hstep, hrest, -⟩ := Machine.run_cons_iff.mp h
    simp only [observed] at hstep
    split at hstep
    · cases hstep
    · next hthread =>
      split at hstep
      · cases hstep
      · next queue events hqueue =>
        cases hstep
        obtain ⟨hcall, hothers, events', hrun⟩ := ih hrest
        refine ⟨hcall, ?_, events ++ events', hrun.cons hqueue⟩
        intro b hb
        rcases List.mem_cons.mp hb with rfl | hb
        · exact hthread
        · exact hothers b hb

end Steps

/-- The steps split before the first store of a push: no store of a pop comes later. -/
theorem split_between {between : List (Action T A)} (h : NoPopBehindPush between) :
    ∃ x y, between = x ++ y ∧ Action.pushStoreHead ∉ x ∧ Action.popStoreTail ∉ y := by
  induction between with
  | nil => exact ⟨[], [], rfl, by simp, by simp⟩
  | cons a rest ih =>
    obtain ⟨hfirst, hrest⟩ := List.pairwise_cons.mp h
    by_cases hpush : a = .pushStoreHead
    · refine ⟨[], a :: rest, rfl, by simp, ?_⟩
      subst hpush
      intro hmem
      rcases List.mem_cons.mp hmem with hsame | hin
      · cases hsame
      · exact hfirst _ hin ⟨rfl, rfl⟩
    · obtain ⟨x, y, rfl, hx, hy⟩ := ih hrest
      refine ⟨a :: x, y, rfl, ?_, hy⟩
      simp [Ne.symm hpush, hx]

/-- What the amendment asks of a call: its caller is the producer or the consumer, or no
pop got behind a push between its loads. -/
def Settled (caller : Caller) (between : List (Action T A)) : Prop :=
  caller = .monitor → NoPopBehindPush between

theorem noPopBehindPush_of_caller {caller : Caller} {between : List (Action T A)}
    (others : ∀ a ∈ between, some caller ≠ some a.thread) (h : Settled caller between) :
    NoPopBehindPush between := by
  cases caller with
  | monitor => exact h rfl
  | producer =>
    apply List.pairwise_of_forall_mem_list
    rintro a ha b - ⟨rfl, -⟩
    exact others _ ha rfl
  | consumer =>
    apply List.pairwise_of_forall_mem_list
    rintro a - b hb ⟨-, rfl⟩
    exact others _ hb rfl

/-- The second load returns what the formula makes of the two loads. -/
theorem loadTail_returns {formula : Fin (2 ^ k) → Fin (2 ^ k) → Nat} {s t : Observed T A k}
    {caller : Caller} {head : Fin (2 ^ k)} {seen : List (ObservedEvent T A)}
    (hcall : s.call = .loadedHead caller head)
    (h : (observed T A k formula).step s .sizeLoadTail = some (t, seen)) :
    seen = [.sizeReturned caller (formula head s.queue.ring.tail)] := by
  simp only [observed, hcall] at h
  cases h
  rfl

theorem exact_count (T A : Type) (k : Nat) : Exact T A k count Settled := by
  intro data before caller first second elements s trace hrun hsettled
  have hsteps : before ++ .sizeCall caller :: (callSteps first second ++ [.sizeLoadTail]) =
      (before ++ .sizeCall caller :: callSteps first second) ++ [.sizeLoadTail] := by simp
  rw [hsteps] at hrun
  obtain ⟨last, seen, returned, hall, hreturn, htrace⟩ := Machine.run_snoc_iff.mp hrun
  obtain ⟨s₀, seen₀, later, hbefore, hcallRun, -⟩ := Machine.run_append_iff.mp hall
  obtain ⟨s₁, seen₁, later₁, hcall, hcallSteps, -⟩ := Machine.run_cons_iff.mp hcallRun
  obtain ⟨s₂, seen₂, later₂, hfirst, hload, -⟩ := Machine.run_append_iff.mp hcallSteps
  obtain ⟨s₃, seen₃, later₃, hloadHead, hsecond, -⟩ := Machine.run_cons_iff.mp hload
  -- where the call stands
  have hcalled : s₁.call = .called caller := by
    simp only [observed] at hcall
    split at hcall
    · split at hcall
      · cases hcall
      · cases hcall
        rfl
    · cases hcall
  have hcalled₂ : s₂.call = .called caller := (run_queue hfirst).1.trans hcalled
  have hloaded : s₃ = { s₂ with call := .loadedHead caller s₂.queue.ring.head } := by
    simp only [observed, hcalled₂] at hloadHead
    cases hloadHead
    rfl
  obtain ⟨hsame, hothers, -⟩ := run_queue hsecond
  have hloaded₃ : s₃.call = .loadedHead caller s₂.queue.ring.head := by rw [hloaded]
  rw [hloaded₃] at hothers
  obtain ⟨x, y, rfl, hx, hy⟩ := split_between (noPopBehindPush_of_caller hothers hsettled)
  rw [List.map_append] at hsecond
  obtain ⟨t, seenx, seeny, hrunx, hruny, -⟩ := Machine.run_append_iff.mp hsecond
  -- the head has not moved before `t`, the tail does not move behind it
  obtain ⟨-, -, eventsx, hqueuex⟩ := run_queue hrunx
  obtain ⟨-, -, eventsy, hqueuey⟩ := run_queue hruny
  have hhead : t.queue.ring.head = s₂.queue.ring.head := by
    rw [run_head hqueuex hx, hloaded]
  have htail : last.queue.ring.tail = t.queue.ring.tail := run_tail hqueuey hy
  have helements : elements = count t.queue.ring.head t.queue.ring.tail := by
    rw [loadTail_returns (hsame.trans hloaded₃) hreturn] at htrace
    have hlast := (List.append_inj' htrace rfl).2
    simp only [List.cons.injEq, ObservedEvent.sizeReturned.injEq, true_and, and_true] at hlast
    rw [hlast, htail, hhead]
  have hduring := hbefore.append (Machine.Run.cons hcall
    (hfirst.append (Machine.Run.cons hloadHead hrunx)))
  refine ⟨first.map .queue ++ .sizeLoadHead :: x.map .queue, y.map .queue, t, _, ?_, hduring, ?_⟩
  · simp [callSteps]
  · rw [helements, ← SPSCRing.size_eq_count, SPSCRing.size_eq]

theorem count_lt (head tail : Fin (2 ^ k)) : count head tail < capacity k := by
  have hsize := SPSCRing.size_eq (⟨head, tail, fun _ => ()⟩ : SPSCRing Unit k)
  rw [SPSCRing.size_eq_count] at hsize
  rw [hsize]
  exact SPSCRing.contents_length_lt _

theorem formulas_eq : (SpscQueue.count : Fin (2 ^ k) → Fin (2 ^ k) → Nat) = count := by
  funext head tail
  exact SpscQueue.count_eq head tail

/-- For both classes: a call of the producer or the consumer, and a call of any other
thread that no pop behind a push comes into, returns the number of elements at an instant
of the call. The formulas agree, and never reach the capacity. -/
theorem exact_of_settled (T A : Type) (k : Nat) :
    Exact T A k count Settled ∧ Exact T A k SpscQueue.count Settled ∧
      ∀ head tail : Fin (2 ^ k), SpscQueue.count head tail = count head tail ∧
        count head tail < capacity k := by
  refine ⟨exact_count T A k, ?_, fun head tail => ⟨SpscQueue.count_eq head tail, count_lt head tail⟩⟩
  rw [formulas_eq]
  exact exact_count T A k

def pushSteps (v : Nat) : List (SPSCRing.Action Nat Unit) :=
  [.pushLoadHead v, .pushLoadTail, .pushWrite, .pushStoreHead]

def popSteps : List (SPSCRing.Action Nat Unit) :=
  [.popLoadTail (), .popLoadHead, .popRead, .popStoreTail]

/-- While a monitor has only loaded the head, one more element is pushed and both are
popped. -/
def overtaken : List (SPSCRing.Action Nat Unit) := pushSteps 8 ++ popSteps ++ popSteps

/-- What is seen of it up to the second load. -/
def overtakenTrace : List (ObservedEvent Nat Unit) :=
  [.queue (.pushCalled 7), .queue (.pushReturned 7 true), .sizeCalled .monitor,
    .queue (.pushCalled 8), .queue (.pushReturned 8 true), .queue (.popCalled ()),
    .queue (.popReturned () (some 7)), .queue (.popCalled ()), .queue (.popReturned () (some 8))]

/-- How many elements the ring of four slots holds after so many steps of the call. -/
def heldAfter (n : Nat) : Option Nat :=
  ((observed Nat Unit 2 count).exec (start fun _ => 0) ((pushSteps 7).map .queue ++
    .sizeCall .monitor :: (callSteps [] overtaken).take n)).map
      fun result => result.1.queue.ring.contents.length

/-- A monitor is told of three elements, which fill a ring of four slots, when there never
were more than two and the ring is empty. -/
theorem monitor_sees_full :
    ¬ Exact Nat Unit 2 count (fun _ _ => True) ∧
      ¬ Exact Nat Unit 2 SpscQueue.count fun _ _ => True := by
  have hno : ¬ Exact Nat Unit 2 count fun _ _ => True := by
    intro hexact
    obtain ⟨s, hrun⟩ : ∃ s, (observed Nat Unit 2 count).Run (start fun _ => 0)
        ((pushSteps 7).map .queue ++ .sizeCall .monitor ::
          (callSteps [] overtaken ++ [.sizeLoadTail])) s
        (overtakenTrace ++ [.sizeReturned .monitor 3]) := Machine.run_of_trace rfl
    obtain ⟨during, rest, t, seen, hsplit, hduring, hlength⟩ :=
      hexact _ _ _ _ _ _ _ _ hrun trivial
    have hprefix : during = (callSteps [] overtaken).take during.length := by
      rw [hsplit, List.take_left]
    have hshort : during.length < 14 := by
      have hlen := congrArg List.length hsplit
      rw [List.length_append] at hlen
      have hsteps : (callSteps [] overtaken).length = 13 := rfl
      omega
    have hheld : heldAfter during.length = some 3 := by
      rw [heldAfter, ← hprefix, hduring, Option.map_some, hlength]
    have hnever : ∀ n < 14, heldAfter n ≠ some 3 := by decide
    exact hnever _ hshort hheld
  refine ⟨hno, ?_⟩
  rw [formulas_eq]
  exact hno

end CppCodes.Guarantees.RingSize
