import CppCodes.Guarantees.FramingRoundTrip

/-!
# What a failed send leaves on the stream

`send_all` gives a frame up at the first error other than `EAGAIN`, also in the
middle of it, and the next order follows on the same connection. The simulator's
loop tries again after `EINTR`. The stream stays a sequence of frames as long as
such errors only come before the first octet of a frame.
-/

set_option autoImplicit false

namespace CppCodes.Guarantees.SendIntegrity

open CppCodes.Library
open CppCodes.Source.HftTest
open CppCodes.Source.HftTest.OmsEngine

def frameOf (w : WireNewOrder) : Bytes := packWithLength w.toBytes

/-- Book an event: a new order starts a delivery, octets extend the last one. -/
def deliver (deliveries : List (WireNewOrder × Bytes)) : Event → List (WireNewOrder × Bytes)
  | .ordered _ w => deliveries ++ [(w, [])]
  | .accepted bytes =>
      match deliveries.getLast? with
      | none => deliveries
      | some (w, got) => deliveries.dropLast ++ [(w, got ++ bytes)]
  | _ => deliveries

/-- The orders sent, each with the octets of its frame that the socket took. -/
def deliveries (trace : List Event) : List (WireNewOrder × Bytes) := trace.foldl deliver []

/-- No octet follows a frame that was cut short. -/
def Intact (trace : List Event) : Prop :=
  (deliveries trace).Pairwise fun earlier later =>
    later.2 = [] ∨ earlier.2 = [] ∨ earlier.2 = frameOf earlier.1

/-- The stream is frames of orders sent, in order, and a part of one more at the
end; the peer's loop makes exactly these frames of it. -/
structure Uncorrupted (trace : List Event) : Prop where
  intact : Intact trace
  frames : ∃ (whole : List WireNewOrder) (part : Bytes),
    whole.Sublist ((ordered trace).map Prod.snd) ∧
      accepted trace = (whole.map (·.toBytes)).flatMap packWithLength ++ part ∧
      (part = [] ∨ ∃ w ∈ (ordered trace).map Prod.snd, part <+: frameOf w) ∧
      receive FramingRoundTrip.collect ([], []) (accepted trace) =
        (part, whole.map (·.toBytes))

/-- A call of `send` that makes `send_all` give up comes before the first octet of
the frame. -/
def CleanFailure (s : State) : Action → Prop
  | .send (.accepted _) => True
  | .send failure => sendAllRetries failure = false →
      (unsent s).length = 4 + sizeofWireNewOrder
  | _ => True

instance : ∀ s a, Decidable (CleanFailure s a)
  | _, .send (.accepted _) => isTrue trivial
  | s, .send .eagain | s, .send .eintr | s, .send .otherError =>
      inferInstanceAs (Decidable (_ → (unsent s).length = 4 + sizeofWireNewOrder))
  | _, .order _ _ _ | _, .recv _ | _, .parse _ | _, .popExec => isTrue trivial

theorem frameOf_length (w : WireNewOrder) : (frameOf w).length = 4 + sizeofWireNewOrder := by
  rw [frameOf, packWithLength_length, WireNewOrder.toBytes_length]

/-- Nothing of the frame was taken, or all of it. -/
def Settled (d : WireNewOrder × Bytes) : Prop := d.2 = [] ∨ d.2 = frameOf d.1

/-- All deliveries are settled but the last, which the octets not sent complete. -/
structure Clean (s : State) (trace : List Event) : Prop where
  orders : (deliveries trace).map Prod.fst = (ordered trace).map Prod.snd
  stream : accepted trace = (deliveries trace).flatMap Prod.snd
  cases : (unsent s = [] ∧ ∀ d ∈ deliveries trace, Settled d) ∨
    ∃ before w got, deliveries trace = before ++ [(w, got)] ∧ got ++ unsent s = frameOf w ∧
      ∀ d ∈ before, Settled d

theorem deliveries_snoc (trace : List Event) (e : Event) :
    deliveries (trace ++ [e]) = deliver (deliveries trace) e := by
  rw [deliveries, List.foldl_append]
  rfl

theorem deliver_accepted (before : List (WireNewOrder × Bytes)) (w : WireNewOrder)
    (got bytes : Bytes) :
    deliver (before ++ [(w, got)]) (.accepted bytes) = before ++ [(w, got ++ bytes)] := by
  simp [deliver]

theorem deliver_nothing (ds : List (WireNewOrder × Bytes)) : deliver ds (.accepted []) = ds := by
  induction ds using List.reverseRecOn with
  | nil => rfl
  | append_singleton before d ih => rw [deliver_accepted, List.append_nil]

theorem ordered_append (before after : List Event) :
    ordered (before ++ after) = ordered before ++ ordered after := List.filterMap_append

theorem accepted_append (before after : List Event) :
    accepted (before ++ after) = accepted before ++ accepted after := List.flatMap_append

section Steps

variable {s u : State} {trace : List Event}

theorem Clean.settled (h : Clean s trace) (hdone : unsent s = []) :
    ∀ d ∈ deliveries trace, Settled d := by
  rcases h.cases with ⟨-, hall⟩ | ⟨before, w, got, hd, hgot, hall⟩
  · exact hall
  · intro d hmem
    rw [hd] at hmem
    rcases List.mem_append.mp hmem with hb | hl
    · exact hall d hb
    · rw [hdone, List.append_nil] at hgot
      rw [List.mem_singleton.mp hl]
      exact Or.inr hgot

/-- Steps that leave the socket alone. -/
theorem Clean.keep (h : Clean s trace) (sent : unsent u = unsent s) {seen : List Event}
    (quiet : ∀ e ∈ seen, (∃ ex entry, e = .parsed ex entry) ∨ ∃ ex, e = .popped ex) :
    Clean u (trace ++ seen) := by
  induction seen using List.reverseRecOn with
  | nil =>
    rw [List.append_nil]
    exact ⟨h.orders, h.stream, by rw [sent]; exact h.cases⟩
  | append_singleton seen e ih =>
    obtain ⟨orders, stream, hcases⟩ := ih fun e' he' => quiet e' (List.mem_append_left _ he')
    have hsame : deliveries (trace ++ seen ++ [e]) = deliveries (trace ++ seen) ∧
        ordered (trace ++ seen ++ [e]) = ordered (trace ++ seen) ∧
        accepted (trace ++ seen ++ [e]) = accepted (trace ++ seen) := by
      rw [deliveries_snoc, ordered_append, accepted_append]
      rcases quiet e (by simp) with ⟨ex, entry, rfl⟩ | ⟨ex, rfl⟩
      · exact ⟨rfl, List.append_nil _, List.append_nil _⟩
      · exact ⟨rfl, List.append_nil _, List.append_nil _⟩
    obtain ⟨hdel, hord, hacc⟩ := hsame
    rw [← List.append_assoc]
    exact ⟨by rw [hdel, hord, orders], by rw [hdel, hacc, stream], by rw [hdel]; exact hcases⟩

theorem Clean.order (h : Clean s trace) (before : unsent s = []) {req : OrderRequest}
    {w : WireNewOrder} (frame : unsent u = packWithLength w.toBytes) :
    Clean u (trace ++ [.ordered req w]) := by
  have hdel : deliveries (trace ++ [.ordered req w]) = deliveries trace ++ [(w, [])] :=
    deliveries_snoc _ _
  refine ⟨?_, ?_, Or.inr ⟨deliveries trace, w, [], hdel, ?_, h.settled before⟩⟩
  · rw [hdel, List.map_append, h.orders, ordered_append, List.map_append]
    rfl
  · rw [hdel, accepted_append, h.stream, List.flatMap_append]
    rfl
  · rw [List.nil_append, frame, frameOf]

theorem Clean.took (h : Clean s trace) {taken : Bytes} (sent : unsent s = taken ++ unsent u) :
    Clean u (trace ++ [.accepted taken]) := by
  have hord : ordered (trace ++ [.accepted taken]) = ordered trace := by
    rw [ordered_append]
    exact List.append_nil _
  have hacc : accepted (trace ++ [.accepted taken]) = accepted trace ++ taken := by
    rw [accepted_append]
    exact congrArg _ (List.append_nil _)
  rcases h.cases with ⟨hnone, hall⟩ | ⟨before, w, got, hd, hgot, hall⟩
  · rw [hnone] at sent
    obtain ⟨rfl, hafter⟩ := List.append_eq_nil_iff.mp sent.symm
    have hdel : deliveries (trace ++ [.accepted []]) = deliveries trace := by
      rw [deliveries_snoc, deliver_nothing]
    rw [List.append_nil] at hacc
    exact ⟨by rw [hdel, hord, h.orders], by rw [hdel, hacc, h.stream],
      Or.inl ⟨hafter, by rw [hdel]; exact hall⟩⟩
  · have hdel : deliveries (trace ++ [.accepted taken]) = before ++ [(w, got ++ taken)] := by
      rw [deliveries_snoc, hd, deliver_accepted]
    refine ⟨?_, ?_, Or.inr ⟨before, w, got ++ taken, hdel, ?_, hall⟩⟩
    · rw [hdel, hord, ← h.orders, hd, List.map_append, List.map_append]
      rfl
    · rw [hdel, hacc, h.stream, hd, List.flatMap_append, List.flatMap_append, List.append_assoc]
      simp
    · rw [List.append_assoc, ← sent, hgot]

/-- `send_all` gives up before the first octet: the order is lost, the stream is not. -/
theorem Clean.gaveUp (h : Clean s trace) (whole : (unsent s).length = 4 + sizeofWireNewOrder)
    (after : unsent u = []) : Clean u (trace ++ [.accepted []]) := by
  have hdel : deliveries (trace ++ [.accepted []]) = deliveries trace := by
    rw [deliveries_snoc, deliver_nothing]
  have hord : ordered (trace ++ [.accepted []]) = ordered trace := by
    rw [ordered_append]
    exact List.append_nil _
  have hacc : accepted (trace ++ [.accepted []]) = accepted trace := by
    rw [accepted_append]
    exact List.append_nil _
  refine ⟨by rw [hdel, hord, h.orders], by rw [hdel, hacc, h.stream], Or.inl ⟨after, ?_⟩⟩
  rw [hdel]
  rcases h.cases with ⟨-, hall⟩ | ⟨before, w, got, hd, hgot, hall⟩
  · exact hall
  · have hlen := congrArg List.length hgot
    rw [List.length_append, whole, frameOf_length] at hlen
    have hnone : got = [] := List.length_eq_zero_iff.mp (by omega)
    intro d hmem
    rw [hd] at hmem
    rcases List.mem_append.mp hmem with hb | hl
    · exact hall d hb
    · rw [List.mem_singleton.mp hl]
      exact Or.inl hnone

theorem step_clean (h : Clean s trace) {a : Action} {seen : List Event} (hcond : CleanFailure s a)
    (hstep : machine.step s a = some (u, seen)) : Clean u (trace ++ seen) := by
  cases step_effect hstep with
  | order req now gaps engine before frame read => exact h.order before frame
  | send r taken engine sent read =>
    rcases sent with hall | ⟨hgive, hfail, rfl, hafter⟩
    · exact h.took hall
    · cases r with
      | accepted n => exact absurd rfl (hfail n)
      | _ => exact h.gaveUp (hcond hgive) hafter
  | recv chunk engine before after read => exact h.keep (after.trans before.symm) (by simp)
  | leaveLoop now noFrame engine before after read =>
    exact h.keep (after.trans before.symm) (by simp)
  | skip now data rest split invalid engine before after read =>
    exact h.keep (after.trans before.symm) (by simp)
  | report now data rest ex split valid engine before after read =>
    exact h.keep (after.trans before.symm) (by simp)
  | popExec engine sent read =>
    refine h.keep sent ?_
    intro e he
    rw [Option.mem_toList, Option.map_eq_some_iff] at he
    obtain ⟨ex, -, rfl⟩ := he
    exact Or.inr ⟨ex, rfl⟩

end Steps

/-! ## What the peer makes of a clean stream -/

/-- The deliveries that are whole frames. -/
def wholeFrames (ds : List (WireNewOrder × Bytes)) : List WireNewOrder :=
  (ds.filter fun d => d.2 ≠ []).map Prod.fst

theorem flatMap_settled {ds : List (WireNewOrder × Bytes)} (h : ∀ d ∈ ds, Settled d) :
    ds.flatMap Prod.snd = ((wholeFrames ds).map (·.toBytes)).flatMap packWithLength := by
  induction ds with
  | nil => rfl
  | cons d ds ih =>
    have hrest := ih fun d' hd' => h d' (List.mem_cons_of_mem _ hd')
    rw [List.flatMap_cons, hrest]
    obtain ⟨w, got⟩ := d
    rcases h (w, got) List.mem_cons_self with hnone | hall
    · have hgot : got = [] := hnone
      subst hgot
      rfl
    · have hgot : got = frameOf w := hall
      subst hgot
      have hne : frameOf w ≠ [] := by
        intro hnil
        have hlen := frameOf_length w
        rw [hnil, List.length_nil] at hlen
        exact absurd hlen (by decide)
      have hcons : wholeFrames ((w, frameOf w) :: ds) = w :: wholeFrames ds := by
        simp [wholeFrames, hne]
      rw [hcons]
      rfl

theorem wholeFrames_sublist (ds : List (WireNewOrder × Bytes)) :
    (wholeFrames ds).Sublist (ds.map Prod.fst) := List.filter_sublist.map _

theorem receive_stream (whole : List WireNewOrder) {part : Bytes} {w : WireNewOrder} {rest : Bytes}
    (hpart : part ++ rest = frameOf w) (hrest : rest ≠ []) :
    receive FramingRoundTrip.collect ([], [])
        ((whole.map (·.toBytes)).flatMap packWithLength ++ part) =
      (part, whole.map (·.toBytes)) := by
  have hshort : ∀ payload ∈ whole.map (·.toBytes), payload.length < 2 ^ 32 := by
    intro payload hmem
    obtain ⟨w', -, rfl⟩ := List.mem_map.mp hmem
    rw [WireNewOrder.toBytes_length]
    decide
  have hnone : lengthPrefixed.decode part = none := by
    have hone : part ++ rest = lengthPrefixed.encode w.toBytes ++ [] := by
      rw [List.append_nil]
      exact hpart
    have hvalid : lengthPrefixed.Valid w.toBytes := by
      show w.toBytes.length < 2 ^ 32
      rw [WireNewOrder.toBytes_length]
      decide
    rcases lengthPrefixed.decode_of_append hvalid hone with ⟨left, -, hl⟩ | ⟨hd, -⟩
    · exact absurd (List.append_eq_nil_iff.mp hl).2 hrest
    · exact hd
  have hdecode := lengthPrefixed.decodeAll_encode (whole.map (·.toBytes)) part hshort
  rw [lengthPrefixed.decodeAll_none hnone, List.append_nil] at hdecode
  rw [receive_eq, List.nil_append]
  rw [show (whole.map (·.toBytes)).flatMap packWithLength =
    (whole.map (·.toBytes)).flatMap lengthPrefixed.encode from rfl, hdecode,
    FramingRoundTrip.foldl_collect, List.nil_append]

theorem pairwise_settled {ds : List (WireNewOrder × Bytes)} (h : ∀ d ∈ ds, Settled d) :
    ds.Pairwise fun earlier later =>
      later.2 = [] ∨ earlier.2 = [] ∨ earlier.2 = frameOf earlier.1 := by
  refine List.Pairwise.imp_of_mem ?_ (List.pairwise_of_forall (R := fun _ _ => True) (by simp))
  intro earlier later hmem _ _
  exact Or.inr (h earlier hmem)

theorem Clean.uncorrupted {s : State} {trace : List Event} (h : Clean s trace) :
    Uncorrupted trace := by
  by_cases hdone : unsent s = []
  · have hall := h.settled hdone
    refine ⟨pairwise_settled hall, wholeFrames (deliveries trace), [], ?_, ?_, Or.inl rfl, ?_⟩
    · rw [← h.orders]
      exact wholeFrames_sublist _
    · rw [h.stream, flatMap_settled hall, List.append_nil]
    · have hpeer := receive_stream (wholeFrames (deliveries trace))
        (show [] ++ frameOf {} = frameOf {} from rfl) (by
          intro hnil
          have hlen := frameOf_length {}
          rw [hnil, List.length_nil] at hlen
          exact absurd hlen (by decide))
      rwa [List.append_nil, ← flatMap_settled hall, ← h.stream] at hpeer
  · rcases h.cases with ⟨hnone, -⟩ | ⟨before, w, got, hd, hgot, hall⟩
    · exact absurd hnone hdone
    · have hstream : accepted trace =
          ((wholeFrames before).map (·.toBytes)).flatMap packWithLength ++ got := by
        rw [h.stream, hd, List.flatMap_append, flatMap_settled hall]
        simp
      have hword : (ordered trace).map Prod.snd = before.map Prod.fst ++ [w] := by
        rw [← h.orders, hd, List.map_append]
        rfl
      refine ⟨?_, wholeFrames before, got, ?_, hstream, Or.inr ⟨w, ?_, unsent s, hgot⟩, ?_⟩
      · rw [Intact, hd, List.pairwise_append]
        refine ⟨pairwise_settled hall, List.pairwise_singleton _ _, ?_⟩
        intro earlier hmem later _
        exact Or.inr (hall earlier hmem)
      · rw [hword]
        exact (wholeFrames_sublist before).trans (List.sublist_append_left _ _)
      · rw [hword]
        exact List.mem_append_right _ List.mem_cons_self
      · rw [hstream]
        exact receive_stream (wholeFrames before) hgot hdone

/-- After a failure in the middle of a frame, the next order that gets an octet
through follows a torn frame. -/
theorem torn_frame {s : State} {trace : List Event} (h : Clean s trace) {frame : Bytes} {sent : Nat}
    (hpc : s.pc = .sending frame sent) (hsome : unsent s ≠ [])
    (htorn : (unsent s).length ≠ 4 + sizeofWireNewOrder) {failure : SendResult}
    (hfail : ∀ n, failure ≠ .accepted n) (hgive : sendAllRetries failure = false)
    (req : OrderRequest) (now : Int64) (gaps : UInt32 × UInt32) :
    ∃ u later, machine.Run s [.send failure, .order req now gaps, .send (.accepted 1)] u later ∧
      ¬ Intact (trace ++ later) := by
  obtain ⟨engine, rxBuffer, pc⟩ := s
  cases hpc
  let w := engine.newOrder req now gaps
  have hcut : sendStep sendAllRetries frame sent failure = some (.done, []) := by
    cases failure with
    | accepted n => exact absurd rfl (hfail n)
    | _ => simp [sendStep, hgive]
  have hone : sendStep sendAllRetries (frameOf w) 0 (.accepted 1) =
      some (.again 1, (frameOf w).take 1) := by
    have hlen := frameOf_length w
    rw [sendStep, if_pos (by rw [hlen]; decide), List.drop_zero, if_pos (by rw [hlen]; decide)]
  have hfirst : machine.step ⟨engine, rxBuffer, .sending frame sent⟩ (.send failure) =
      some (⟨engine, rxBuffer, .idle⟩, [.accepted []]) := by
    simp only [machine, hcut]
  have hsecond : machine.step ⟨engine, rxBuffer, .idle⟩ (.order req now gaps) =
      some (⟨engine.registerOrder req, rxBuffer, .sending (frameOf w) 0⟩, [.ordered req w]) := rfl
  have hthird : machine.step ⟨engine.registerOrder req, rxBuffer, .sending (frameOf w) 0⟩
      (.send (.accepted 1)) = some (⟨engine.registerOrder req, rxBuffer, .sending (frameOf w) 1⟩,
        [.accepted ((frameOf w).take 1)]) := by
    simp only [machine, hone]
  refine ⟨_, _, Machine.Run.cons hfirst (Machine.Run.cons hsecond (Machine.Run.single hthird)), ?_⟩
  rcases h.cases with ⟨hnone, -⟩ | ⟨before, w', got, hd, hgot, -⟩
  · exact absurd hnone hsome
  · have hlater : deliveries (trace ++ ([.accepted []] ++ ([.ordered req w] ++
        [.accepted ((frameOf w).take 1)]))) =
        before ++ [(w', got)] ++ [(w, [] ++ (frameOf w).take 1)] := by
      rw [← List.append_assoc, ← List.append_assoc, deliveries_snoc, deliveries_snoc,
        deliveries_snoc, deliver_nothing, hd]
      exact deliver_accepted _ _ _ _
    intro hintact
    rw [Intact, hlater, List.pairwise_append] at hintact
    have hpair := hintact.2.2 (w', got) (by simp) (w, [] ++ (frameOf w).take 1) (by simp)
    have hlen := congrArg List.length hgot
    rw [List.length_append, frameOf_length] at hlen
    rcases hpair with hone | hnone | hall
    · have hlast := congrArg List.length hone
      rw [List.nil_append, List.length_take, frameOf_length] at hlast
      exact absurd hlast (by decide)
    · have hgotNil : got = [] := hnone
      rw [hgotNil, List.length_nil, Nat.zero_add] at hlen
      exact htorn hlen
    · have hgotAll : got.length = (frameOf w').length := congrArg List.length hall
      rw [frameOf_length] at hgotAll
      exact hsome (List.length_eq_zero_iff.mp (by omega))

theorem start_clean (data : Fin (2 ^ kRingDepthLog) → ExecUpdate) : Clean (start data) [] :=
  ⟨rfl, rfl, Or.inl ⟨rfl, by simp [deliveries]⟩⟩

theorem run_clean {data : Fin (2 ^ kRingDepthLog) → ExecUpdate} {actions : List Action} {s : State}
    {trace : List Event} (h : machine.Run (start data) actions s trace)
    (hcond : machine.StepsMeet CleanFailure (start data) actions) : Clean s trace :=
  h.invariant_of_steps (start_clean data)
    (fun hclean hmeet hstep => step_clean hclean hmeet hstep) hcond

/-- Every run in which `send_all` only gives up before the first octet of a frame
keeps the stream whole; from such a run, giving up inside a frame lets the next
order tear it. -/
theorem stream_whole_when_failures_clean (data : Fin (2 ^ kRingDepthLog) → ExecUpdate)
    (actions : List Action) (s : State) (trace : List Event)
    (h : machine.Run (start data) actions s trace)
    (hcond : machine.StepsMeet CleanFailure (start data) actions) :
    Uncorrupted trace ∧
      ∀ frame sent failure, s.pc = .sending frame sent → unsent s ≠ [] →
        (∀ n, failure ≠ .accepted n) → ¬ CleanFailure s (.send failure) →
        ∀ req now gaps, ∃ u later,
          machine.Run s [.send failure, .order req now gaps, .send (.accepted 1)] u later ∧
            ¬ Uncorrupted (trace ++ later) := by
  have hclean := run_clean h hcond
  refine ⟨hclean.uncorrupted, ?_⟩
  intro frame sent failure hpc hsome hfail hdirty req now gaps
  have hboth : sendAllRetries failure = false ∧ (unsent s).length ≠ 4 + sizeofWireNewOrder := by
    cases failure with
    | accepted n => exact absurd rfl (hfail n)
    | _ => simpa [CleanFailure] using hdirty
  obtain ⟨u, later, hrun, htear⟩ :=
    torn_frame hclean hpc hsome hboth.2 hfail hboth.1 req now gaps
  exact ⟨u, later, hrun, fun hgood => htear hgood.intact⟩

/-- `EINTR` after ten octets of the first frame, then a second order: the peer
takes the rest of the first frame out of the second one. -/
theorem eintr_inside_a_frame_tears_the_stream :
    ∃ s trace, machine.Run (start fun _ => {})
      [.order { mdEventId := 1 } 0 (0, 0), .send (.accepted 10), .send .eintr,
        .order { mdEventId := 2 } 0 (0, 0), .send (.accepted 60)] s trace ∧
      ¬ Uncorrupted trace ∧
      (splitFrame (accepted trace)).isSome = true ∧
      ∀ o ∈ ordered trace, (splitFrame (accepted trace)).map Prod.fst ≠ some o.2.toBytes := by
  have hrun := Machine.run_of_isSome (m := machine) (start fun _ => {})
    [.order { mdEventId := 1 } 0 (0, 0), .send (.accepted 10), .send .eintr,
      .order { mdEventId := 2 } 0 (0, 0), .send (.accepted 60)] (by decide +kernel)
  refine ⟨_, _, hrun, ?_, ?_, ?_⟩
  · intro h
    exact absurd h.intact (by unfold Intact; decide +kernel)
  · decide +kernel
  · decide +kernel

/-- A short count, `EAGAIN`, the rest; then `ENOBUFS` at once for the second order. -/
theorem stream_whole_when_failures_clean_two_orders :
    ∃ s trace, machine.Run (start fun _ => {})
      [.order { mdEventId := 1 } 0 (0, 0), .send (.accepted 10), .send .eagain,
        .send (.accepted 50), .order { mdEventId := 2 } 0 (0, 0), .send .otherError] s trace ∧
      Uncorrupted trace := by
  have hrun := Machine.run_of_isSome (m := machine) (start fun _ => {})
    [.order { mdEventId := 1 } 0 (0, 0), .send (.accepted 10), .send .eagain,
      .send (.accepted 50), .order { mdEventId := 2 } 0 (0, 0), .send .otherError]
    (by decide +kernel)
  exact ⟨_, _, hrun, (stream_whole_when_failures_clean _ _ _ _ hrun (by decide +kernel)).1⟩

end CppCodes.Guarantees.SendIntegrity
