import CppCodes.Source.HftTest.OmsLoop

/-!
# The order thread never sleeps on work

Thread A pushes a request and then writes the counter; the order thread empties the
counter and then the ring. A request that is pushed after the ring was found empty has
its write still to come or not taken yet, so the counter wakes the thread. The socket is
reported once for each change, and is read until nothing is left.
-/

set_option autoImplicit false

namespace CppCodes.Guarantees.LoopWakeups

open Library
open Source.HftTest
open Source.HftTest.OmsLoop

variable {s t : State} {a : Action} {trace seen : List Event}

/-! ## Histories -/

@[simp] theorem omsTrace_append :
    omsTrace (trace ++ seen) = omsTrace trace ++ omsTrace seen := List.filterMap_append ..

@[simp] theorem pushed_append : pushed (trace ++ seen) = pushed trace ++ pushed seen :=
  List.filterMap_append ..

@[simp] theorem arrivals_append : arrivals (trace ++ seen) = arrivals trace ++ arrivals seen :=
  List.flatMap_append ..

@[simp] theorem received_append : received (trace ++ seen) = received trace ++ received seen :=
  List.flatMap_append ..

@[simp] theorem sent_append : sent (trace ++ seen) = sent trace ++ sent seen := by
  simp [sent, OmsEngine.ordered, List.filterMap_append]

@[simp] theorem omsTrace_map (es : List OmsEngine.Event) : omsTrace (es.map Event.oms) = es := by
  simp [omsTrace, List.filterMap_map]

@[simp] theorem pushed_map (es : List OmsEngine.Event) : pushed (es.map Event.oms) = [] := by
  simp [pushed, List.filterMap_map]

@[simp] theorem arrivals_map (es : List OmsEngine.Event) : arrivals (es.map Event.oms) = [] := by
  simp [arrivals, List.flatMap_map]

@[simp] theorem received_map (es : List OmsEngine.Event) : received (es.map Event.oms) = [] := by
  simp [received, List.flatMap_map]

theorem sent_map (es : List OmsEngine.Event) :
    sent (es.map Event.oms) = (OmsEngine.ordered es).map Prod.fst := by
  rw [sent, omsTrace_map]

/-! ## The engine inside the loop -/

/-- Outside of `parse_exec_reports` no complete frame is left in `rx_buffer_`. -/
def Parsed (oms : OmsEngine.State) : Prop :=
  (∀ offset payload, oms.pc ≠ .parsing offset payload) → splitFrame oms.rxBuffer = none

theorem Parsed.step {oms oms' : OmsEngine.State} {a : OmsEngine.Action}
    {es : List OmsEngine.Event} (h : Parsed oms)
    (hstep : OmsEngine.machine.step oms a = some (oms', es)) : Parsed oms' := by
  obtain ⟨engine, rxBuffer, pc⟩ := oms
  cases a with
  | order req now gaps =>
    cases pc with
    | idle =>
      cases hstep
      exact fun _ => h (by simp)
    | _ => cases hstep
  | send r =>
    cases pc with
    | sending frame sent =>
      have hnone : splitFrame rxBuffer = none := h (by simp)
      simp only [OmsEngine.machine] at hstep
      split at hstep <;> cases hstep <;> exact fun _ => hnone
    | _ => cases hstep
  | recv chunk =>
    cases pc with
    | idle =>
      cases hstep
      exact fun hnot => absurd rfl (hnot 0 [])
    | _ => cases hstep
  | parse now =>
    cases pc with
    | parsing offset payload =>
      simp only [OmsEngine.machine, unpackFrame_drop] at hstep
      cases hsplit : splitFrame (rxBuffer.drop offset) with
      | none =>
        rw [hsplit] at hstep
        cases hstep
        exact fun _ => hsplit
      | some split =>
        obtain ⟨data, rest⟩ := split
        simp only [hsplit] at hstep
        split at hstep <;> cases hstep <;> exact fun hnot => absurd rfl (hnot _ _)
    | _ => cases hstep
  | popExec =>
    cases hstep
    exact h

/-- What a step of the engine is to the loop. -/
theorem omsStep_spec {b : OmsEngine.Action} (h : omsStep s b = some (t, seen)) :
    ∃ oms es, OmsEngine.machine.step s.oms b = some (oms, es) ∧ t = { s with oms := oms } ∧
      seen = es.map Event.oms := by
  obtain ⟨⟨oms, es⟩, hstep, heq⟩ := Option.map_eq_some_iff.mp h
  cases heq
  exact ⟨oms, es, hstep, rfl, rfl⟩

theorem ordered_of_inCall {oms oms' : OmsEngine.State} {b : OmsEngine.Action}
    {es : List OmsEngine.Event} (hb : inCall b = true)
    (hstep : OmsEngine.machine.step oms b = some (oms', es)) : OmsEngine.ordered es = [] := by
  rw [(OmsEngine.step_history hstep).1]
  cases b <;> first | rfl | cases hb

/-- A call that goes on had been begun. -/
theorem pc_of_inCall {oms oms' : OmsEngine.State} {b : OmsEngine.Action}
    {es : List OmsEngine.Event} (hb : inCall b = true)
    (hstep : OmsEngine.machine.step oms b = some (oms', es)) : oms.pc ≠ .idle := by
  intro hidle
  cases b <;> simp_all [inCall, OmsEngine.machine]

/-! ## What the loop keeps -/

/-- The drain of counter and ring is under way. -/
def drains : Phase → Bool
  | .silencing _ | .popping _ => true
  | _ => false

/-- The events not handled yet. -/
def pending : Phase → List Ready
  | .handling events | .reading events => events
  | .silencing (some events) | .popping (some events) => events
  | _ => []

def reads : Phase → Bool
  | .reading _ => true
  | _ => false

/-- The phases in which `send_all` and `parse_exec_reports` are called. -/
def calls : Phase → Bool
  | .reading _ | .popping _ => true
  | _ => false

structure Inv (s : State) (trace : List Event) : Prop where
  requests : pushed trace = sent trace ++ s.inbound.contents
  octets : arrivals trace = received trace ++ s.arrived
  idle : calls s.phase = false → s.oms.pc = .idle
  parsed : Parsed s.oms
  bell : drains s.phase = false →
    s.inbound.contents.length ≤ s.bell + if s.announcing then 1 else 0
  edge : s.arrived ≠ [] ∨ s.hungUp = true ∧ s.running = true →
    s.edge = true ∨ reads s.phase = true ∨ .socket true ∈ pending s.phase

/-- `recv` fails with `EAGAIN` only. After any other failure (a reset connection)
`handle_socket_read` returns and the loop goes on as if the connection were there. -/
def NoRecvFailure (_ : State) : Action → Prop
  | .recvFails => False
  | _ => True

instance (s : State) (a : Action) : Decidable (NoRecvFailure s a) := by
  unfold NoRecvFailure
  split <;> infer_instance

/-- The engine steps and the loop stands still. -/
theorem Inv.omsStep (inv : Inv s trace) {b : OmsEngine.Action}
    (hstep : OmsLoop.omsStep s b = some (t, seen))
    (hordered : ∀ {oms es}, OmsEngine.machine.step s.oms b = some (oms, es) →
      OmsEngine.ordered es = [])
    (hidle : ∀ {oms es}, OmsEngine.machine.step s.oms b = some (oms, es) →
      calls s.phase = false → oms.pc = .idle) : Inv t (trace ++ seen) := by
  obtain ⟨oms, es, homs, rfl, rfl⟩ := omsStep_spec hstep
  refine ⟨?_, ?_, hidle homs, inv.parsed.step homs, inv.bell, inv.edge⟩
  · rw [pushed_append, pushed_map, sent_append, sent_map, hordered homs, List.append_nil,
      List.map_nil, List.append_nil]
    exact inv.requests
  · rw [arrivals_append, arrivals_map, received_append, received_map, List.append_nil,
      List.append_nil]
    exact inv.octets

/-- Thread A: a push comes before its announcement. -/
theorem Inv.push (inv : Inv s trace) {req : OrderRequest}
    (hstep : OmsLoop.step s (.push req) = some (t, seen)) : Inv t (trace ++ seen) := by
  simp only [OmsLoop.step] at hstep
  split at hstep
  · cases hstep
  · rename_i hquiet
    obtain ⟨-, hcontents⟩ := s.inbound.push_spec req
    cases hpush : s.inbound.push req with
    | mk inbound taken =>
      rw [hpush] at hstep hcontents
      cases taken with
      | false =>
        cases hstep
        exact ⟨by simpa [pushed, sent, omsTrace, OmsEngine.ordered] using inv.requests,
          by simpa [arrivals, received] using inv.octets, inv.idle, inv.parsed, inv.bell, inv.edge⟩
      | true =>
        cases hstep
        simp only [if_true] at hcontents
        refine ⟨?_, by simpa [arrivals, received] using inv.octets, inv.idle, inv.parsed, ?_,
          inv.edge⟩
        · simp only [pushed_append, sent_append, hcontents, ← List.append_assoc]
          rw [show sent [Event.pushed req] = [] from rfl, List.append_nil, ← inv.requests]
          rfl
        · intro hphase
          have hbefore := inv.bell hphase
          rw [if_neg hquiet] at hbefore
          simp only [hcontents, List.length_append, List.length_singleton, if_true]
          omega

/-- A turn of `handle_ring`: the request is sent, or the ring is empty and the counter has
been read since the last request came. -/
theorem Inv.popOrder (inv : Inv s trace) {now : Int64} {gaps : UInt32 × UInt32}
    (hpc : s.oms.pc = .idle)
    (hstep : loopStep s (.popOrder now gaps) = some (t, seen)) : Inv t (trace ++ seen) := by
  dsimp only [loopStep] at hstep
  split at hstep
  · rename_i events hphase
    obtain ⟨hcontents, -⟩ := s.inbound.pop_spec
    cases hpop : s.inbound.pop with
    | mk inbound found =>
      rw [hpop] at hstep hcontents
      cases found with
      | some req =>
        obtain ⟨oms, es, homs, rfl, rfl⟩ := omsStep_spec hstep
        have hordered := (OmsEngine.step_history homs).1
        refine ⟨?_, ?_, ?_, inv.parsed.step homs, ?_, ?_⟩
        · rw [pushed_append, pushed_map, sent_append, sent_map, hordered, List.append_nil,
            inv.requests, hcontents]
          simp [OmsEngine.orderedBy]
        · rw [arrivals_append, arrivals_map, received_append, received_map, List.append_nil,
            List.append_nil]
          exact inv.octets
        · intro hcalls
          rw [show calls s.phase = true from by rw [hphase]; rfl] at hcalls
          cases hcalls
        · intro hdrains
          rw [show drains s.phase = true from by rw [hphase]; rfl] at hdrains
          cases hdrains
        · exact inv.edge
      | none =>
        cases hstep
        have hempty : inbound.contents = s.inbound.contents := by simpa using hcontents.symm
        have hnone : s.inbound.contents = [] := by
          have hhead := (s.inbound.pop_spec).2
          rw [hpop] at hhead
          exact List.head?_eq_none_iff.mp hhead.symm
        rw [List.append_nil]
        refine ⟨by rw [hempty]; exact inv.requests, inv.octets, fun _ => hpc, inv.parsed, ?_, ?_⟩
        · intro _
          simp [hempty, hnone]
        · intro hwork
          have hedge := inv.edge hwork
          rw [hphase] at hedge
          cases events with
          | none => exact hedge
          | some events => exact hedge
  · cases hstep

/-- A turn of `handle_socket_read`: octets are read and parsed, or none are left. -/
theorem Inv.recv (inv : Inv s trace) {n : Nat} (hpc : s.oms.pc = .idle)
    (hstep : loopStep s (.recv n) = some (t, seen)) : Inv t (trace ++ seen) := by
  dsimp only [loopStep] at hstep
  split at hstep
  · rename_i events hphase
    split at hstep
    · rename_i hnone
      cases hstep
      rw [List.append_nil]
      refine ⟨inv.requests, inv.octets, fun _ => hpc, inv.parsed, fun _ => inv.bell ?_, ?_⟩
      · rw [hphase]
        rfl
      · rintro (hleft | ⟨hhung, hrunning⟩)
        · exact absurd hnone hleft
        · rw [Bool.and_eq_true, show s.hungUp = true from hhung] at hrunning
          cases hrunning.2
    · split at hstep
      · obtain ⟨⟨u, later⟩, hrecv, heq⟩ := Option.map_eq_some_iff.mp hstep
        cases heq
        obtain ⟨oms, es, homs, rfl, rfl⟩ := omsStep_spec hrecv
        have hordered := (OmsEngine.step_history homs).1
        refine ⟨?_, ?_, ?_, inv.parsed.step homs, inv.bell, ?_⟩
        · rw [← List.singleton_append, pushed_append, pushed_append, sent_append, sent_append,
            pushed_map, sent_map, hordered]
          simpa [pushed, sent, omsTrace, OmsEngine.ordered, OmsEngine.orderedBy]
            using inv.requests
        · rw [← List.singleton_append, arrivals_append, arrivals_append, received_append,
            received_append, arrivals_map, received_map, inv.octets]
          simp [arrivals, received]
        · intro hcalls
          rw [show calls s.phase = true from by rw [hphase]; rfl] at hcalls
          cases hcalls
        · exact fun _ => Or.inr (Or.inl (show reads s.phase = true from by rw [hphase]; rfl))
      · cases hstep
  · cases hstep

/-- The loop goes on without touching rings, streams or engine. -/
theorem Inv.go (inv : Inv s trace) (hpc : s.oms.pc = .idle) {phase : Phase} {edge : Bool}
    {bell : Nat}
    (hbell : drains phase = false → s.inbound.contents.length ≤ bell + if s.announcing then 1 else 0)
    (hedge : s.arrived ≠ [] ∨ s.hungUp = true ∧ s.running = true →
      edge = true ∨ reads phase = true ∨ .socket true ∈ pending phase) :
    Inv { s with phase := phase, edge := edge, bell := bell } (trace ++ []) := by
  rw [List.append_nil]
  exact ⟨inv.requests, inv.octets, fun _ => hpc, inv.parsed, hbell, hedge⟩

/-- `epoll_wait` returns the socket when it has to be read. -/
theorem socket_mem_ready {socketFirst : Bool} (hedge : s.edge = true)
    (hwork : s.arrived ≠ [] ∨ s.hungUp = true ∧ s.running = true) :
    .socket true ∈ ready s socketFirst := by
  have hreadable : (decide (s.arrived ≠ []) || s.hungUp) = true := by
    rcases hwork with hleft | ⟨hhung, -⟩
    · simp [hleft]
    · simp [hhung]
  unfold ready
  rw [hedge, hreadable]
  cases socketFirst <;> simp

theorem Inv.loopStep (inv : Inv s trace) (hpc : s.oms.pc = .idle) (hclean : NoRecvFailure s a)
    (hstep : OmsLoop.loopStep s a = some (t, seen)) : Inv t (trace ++ seen) := by
  cases a with
  | again =>
    dsimp only [OmsLoop.loopStep] at hstep
    split at hstep
    · rename_i hphase
      cases hstep
      have hbell := inv.bell
      have hedge := inv.edge
      rw [hphase] at hbell hedge
      refine inv.go hpc ?_ ?_
      · intro _
        exact hbell rfl
      · intro hwork
        have hbefore := hedge hwork
        split <;> exact hbefore
    · cases hstep
  | epollWait socketFirst =>
    dsimp only [OmsLoop.loopStep] at hstep
    split at hstep
    · rename_i hphase
      cases hstep
      have hbell := inv.bell
      have hedge := inv.edge
      rw [hphase] at hbell hedge
      refine inv.go hpc (fun _ => hbell rfl) ?_
      intro hwork
      rcases hedge hwork with hset | hreads | hpending
      · exact Or.inr (Or.inr (socket_mem_ready hset hwork))
      · cases hreads
      · cases hpending
    · cases hstep
  | epollInterrupted | epollFails =>
    dsimp only [OmsLoop.loopStep] at hstep
    split at hstep
    · rename_i hphase
      cases hstep
      have hbell := inv.bell
      have hedge := inv.edge
      rw [hphase] at hbell hedge
      exact inv.go hpc (fun _ => hbell rfl) hedge
    · cases hstep
  | nextEvent =>
    have hbell := inv.bell
    have hedge := inv.edge
    dsimp only [OmsLoop.loopStep] at hstep
    split at hstep
    · rename_i hphase
      rw [hphase] at hedge
      cases hstep
      exact inv.go hpc (by simp [drains]) hedge
    · rename_i events hphase
      rw [hphase] at hedge
      cases hstep
      refine inv.go hpc (by simp [drains]) fun hwork => ?_
      simpa [pending, reads] using hedge hwork
    · rename_i readable events hphase
      rw [hphase] at hbell hedge
      cases hstep
      have hready : s.inbound.contents.length ≤ s.bell + if s.announcing then 1 else 0 := hbell rfl
      refine inv.go hpc (fun _ => hready) fun hwork => ?_
      cases readable with
      | true => exact Or.inr (Or.inl rfl)
      | false => simpa [pending, reads] using hedge hwork
    · cases hstep
  | readBell =>
    dsimp only [OmsLoop.loopStep] at hstep
    split at hstep
    · rename_i events hphase
      have hedge := inv.edge
      split at hstep
      · cases hstep
        have hdraining : drains s.phase = true := by
          rw [hphase]
          rfl
        exact inv.go hpc (fun hdrains => absurd hdraining (by simp [hdrains])) hedge
      · cases hstep
        rw [hphase] at hedge
        refine inv.go hpc (by simp [drains]) fun hwork => ?_
        cases events <;> exact hedge hwork
    · cases hstep
  | popOrder now gaps => exact inv.popOrder hpc hstep
  | recv n => exact inv.recv hpc hstep
  | recvFails => cases hclean
  | _ => cases hstep

/-- A call of `loop` between two of the engine's. -/
theorem Inv.between (inv : Inv s trace) (hclean : NoRecvFailure s a)
    (hstep : (match s.oms.pc with
      | .idle => OmsLoop.loopStep s a
      | _ => none) = some (t, seen)) : Inv t (trace ++ seen) := by
  cases hpc : s.oms.pc with
  | idle =>
    rw [hpc] at hstep
    exact inv.loopStep hpc hclean hstep
  | _ => simp [hpc] at hstep

theorem Inv.step (inv : Inv s trace) (hclean : NoRecvFailure s a)
    (hstep : OmsLoop.step s a = some (t, seen)) : Inv t (trace ++ seen) := by
  cases a with
  | push req => exact inv.push hstep
  | announce =>
    simp only [OmsLoop.step] at hstep
    split at hstep
    · rename_i hannouncing
      cases hstep
      rw [List.append_nil]
      refine ⟨inv.requests, inv.octets, inv.idle, inv.parsed, fun hphase => ?_, inv.edge⟩
      have hbefore := inv.bell hphase
      rw [if_pos hannouncing] at hbefore
      simpa using hbefore
    · cases hstep
  | popExec =>
    exact inv.omsStep hstep (fun homs => (OmsEngine.step_history homs).1) fun homs hphase => by
      cases homs
      exact inv.idle hphase
  | join =>
    simp only [OmsLoop.step] at hstep
    split at hstep
    · cases hstep
    · cases hstep
      rw [List.append_nil]
      refine ⟨inv.requests, inv.octets, inv.idle, inv.parsed, inv.bell, fun hwork => inv.edge ?_⟩
      exact hwork.imp_right fun hboth => absurd hboth.2 Bool.false_ne_true
  | arrive chunk =>
    simp only [OmsLoop.step] at hstep
    split at hstep
    · cases hstep
    · cases hstep
      refine ⟨?_, ?_, inv.idle, inv.parsed, inv.bell, fun _ => Or.inl rfl⟩
      · simpa [pushed, sent, omsTrace, OmsEngine.ordered] using inv.requests
      · rw [arrivals_append, received_append, inv.octets]
        simp [arrivals, received]
  | hangUp =>
    simp only [OmsLoop.step] at hstep
    split at hstep
    · cases hstep
    · cases hstep
      rw [List.append_nil]
      exact ⟨inv.requests, inv.octets, inv.idle, inv.parsed, inv.bell, fun _ => Or.inl rfl⟩
  | writable =>
    cases hstep
    rw [List.append_nil]
    exact ⟨inv.requests, inv.octets, inv.idle, inv.parsed, inv.bell, fun _ => Or.inl rfl⟩
  | call b =>
    simp only [OmsLoop.step] at hstep
    split at hstep
    · rename_i hb
      refine inv.omsStep hstep (ordered_of_inCall hb) fun homs hphase => ?_
      exact absurd (inv.idle hphase) (pc_of_inCall hb homs)
    · cases hstep
  | again | epollWait _ | epollInterrupted | epollFails | nextEvent | readBell | popOrder _ _ | recv _ =>
    exact inv.between hclean hstep
  | recvFails => cases hclean

theorem inv_start (data : Fin (2 ^ kRingDepthLog) → ExecUpdate)
    (slots : Fin (2 ^ kRingDepthLog) → OrderRequest) : Inv (start data slots) [] := by
  refine ⟨?_, rfl, fun _ => rfl, fun _ => rfl, fun _ => ?_, ?_⟩
  · simp [start, pushed, sent, omsTrace, OmsEngine.ordered]
  · simp [start]
  · rintro (hleft | ⟨hhung, -⟩)
    · exact absurd rfl hleft
    · cases hhung

/-- As long as `recv` fails with `EAGAIN` only: while the order thread sleeps in `epoll_wait` with
nothing that could wake it, every request that the ring took and thread A has announced has been
passed to `send_new_order`, everything that has arrived at the socket has been read, no complete
report waits to be parsed, and the end of the stream has been noticed. A request whose announcement
is still to come is the only one that may be left. -/
theorem no_wakeup_lost {data : Fin (2 ^ kRingDepthLog) → ExecUpdate}
    {slots : Fin (2 ^ kRingDepthLog) → OrderRequest} {actions : List Action}
    (run : machine.Run (start data slots) actions t trace)
    (hclean : machine.StepsMeet NoRecvFailure (start data slots) actions) :
    (∃ left, pushed trace = sent trace ++ left ∧ (t.phase = .waiting → t.bell = 0 →
      left.length ≤ if t.announcing then 1 else 0)) ∧
    (∃ left, arrivals trace = received trace ++ left ∧ (t.phase = .waiting → t.edge = false →
      left = [] ∧ (t.hungUp = true → t.running = false))) ∧
    (t.phase = .waiting → t.oms.pc = .idle ∧ splitFrame t.oms.rxBuffer = none) := by
  have inv := run.invariant_of_steps (I := Inv) (inv_start data slots)
    (fun inv hgood hstep => inv.step hgood hstep) hclean
  refine ⟨⟨t.inbound.contents, inv.requests, ?_⟩, ⟨t.arrived, inv.octets, ?_⟩, ?_⟩
  · intro hphase hbell
    have hring := inv.bell (by rw [hphase]; rfl)
    rwa [hbell, Nat.zero_add] at hring
  · intro hphase hedge
    have hquiet : ¬(t.arrived ≠ [] ∨ t.hungUp = true ∧ t.running = true) := by
      intro hwork
      have hleft := inv.edge hwork
      rw [hedge, hphase] at hleft
      simp [reads, pending] at hleft
    rw [not_or, not_not] at hquiet
    refine ⟨hquiet.1, fun hhung => ?_⟩
    cases hrunning : t.running with
    | false => rfl
    | true => exact absurd ⟨hhung, hrunning⟩ hquiet.2
  · intro hphase
    have hpc := inv.idle (by rw [hphase]; rfl)
    exact ⟨hpc, inv.parsed (by simp [hpc])⟩

/-- A request comes between the drain and `epoll_wait`; one octet arrives meanwhile. -/
def requestAmidDrain : List Action :=
  [.again, .epollWait false, .nextEvent, .readBell, .push {}, .popOrder 0 (0, 0),
    .call (.send (.accepted 60)), .popOrder 0 (0, 0), .announce, .arrive [7], .again,
    .epollWait true, .nextEvent, .recv 1, .call (.parse 0), .recv 1, .nextEvent, .readBell,
    .readBell, .popOrder 0 (0, 0), .nextEvent, .readBell, .popOrder 0 (0, 0), .again]

theorem no_wakeup_lost_amid_drain :
    ∃ t trace, machine.Run (start (fun _ => {}) fun _ => {}) requestAmidDrain t trace ∧
      pushed trace = [{}] ∧ sent trace = [{}] ∧ arrivals trace = received trace ∧
      splitFrame t.oms.rxBuffer = none := by
  have hrun := Machine.run_of_isSome (m := machine) (start (fun _ => {}) fun _ => {})
    requestAmidDrain (by decide +kernel)
  obtain ⟨⟨requests, hpushed, hrequests⟩, ⟨octets, harrivals, hoctets⟩, hparsed⟩ :=
    no_wakeup_lost hrun (by decide +kernel)
  have hnone : requests = [] := by
    have hlength := hrequests (by decide +kernel) (by decide +kernel)
    exact List.length_eq_zero_iff.mp (Nat.le_zero.mp (hlength.trans (by decide +kernel)))
  have hread := (hoctets (by decide +kernel) (by decide +kernel)).1
  refine ⟨_, _, hrun, by decide +kernel, ?_, ?_, (hparsed (by decide +kernel)).2⟩
  · rw [hnone, List.append_nil] at hpushed
    rw [← hpushed]
    decide +kernel
  · rw [hread, List.append_nil] at harrivals
    exact harrivals

end CppCodes.Guarantees.LoopWakeups
