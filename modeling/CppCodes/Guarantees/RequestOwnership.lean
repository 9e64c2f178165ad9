import CppCodes.Source.Net.IoUringRequests

/-!
# The requests of the io_uring server

Every request object is freed once and not touched afterwards, the kernel's writes
included. The listening socket has one `accept` out, every connection that is open has
one read out or about to be queued, and no request has two.
-/

set_option autoImplicit false

namespace CppCodes.Guarantees.RequestOwnership

open Library
open Source.Net
open Source.Net.IoUringServer

variable {s t : Server} {p q : Ptr} {req : IoRequest} {log : List (AllocTrace.Event Ptr)}
  {trace seen : List Seen}

@[simp] theorem network_append : network (trace ++ seen) = network trace ++ network seen :=
  List.filterMap_append ..

@[simp] theorem memory_append : memory (trace ++ seen) = memory trace ++ memory seen :=
  List.filterMap_append ..

@[simp] theorem network_nil : network [] = [] := rfl

@[simp] theorem memory_nil : memory [] = [] := rfl

@[simp] theorem network_net (es : List Event) : network (es.map Seen.net) = es := by
  simp [network, networkOf, List.filterMap_map, Function.comp_def]

@[simp] theorem memory_net (es : List Event) : memory (es.map Seen.net) = [] := by
  simp [memory, memoryOf, List.filterMap_map, Function.comp_def]

@[simp] theorem network_memory {e : AllocTrace.Event Ptr} : network [.memory e] = [] := rfl

@[simp] theorem memory_memory {e : AllocTrace.Event Ptr} : memory [.memory e] = [e] := rfl

/-! ## The log of the heap -/

/-- The log is in order and says which requests there are. -/
structure Logged (s : Server) (log : List (AllocTrace.Event Ptr)) : Prop where
  disciplined : AllocTrace.Disciplined log
  live : ∀ p, p ∈ AllocTrace.owned log ↔ s.requests p ≠ none
  sizes : ∀ p size, (p, size) ∈ AllocTrace.blocks log → size = requestSize

theorem Logged.congr (h : Logged s log) (hlive : ∀ p, t.requests p = none ↔ s.requests p = none) :
    Logged t log :=
  ⟨h.disciplined, fun p => (h.live p).trans (not_congr (hlive p)).symm, h.sizes⟩

theorem Logged.obtained (h : Logged s log) (hq : s.requests q = none)
    (ht : t.requests = Function.update s.requests q (some req)) :
    Logged t (log ++ [.obtained q requestSize]) := by
  refine ⟨AllocTrace.disciplined_snoc_iff.mpr ⟨h.disciplined, ?_⟩, ?_, ?_⟩
  · exact fun hin => (h.live q).mp hin hq
  · intro p
    rw [AllocTrace.owned_obtained, List.mem_cons, h.live, ht]
    by_cases hp : p = q
    · simp [hp]
    · simp [hp]
  · intro p size hin
    rw [AllocTrace.blocks_snoc, AllocTrace.track, List.mem_cons] at hin
    rcases hin with hnew | hold
    · exact congrArg Prod.snd hnew
    · exact h.sizes p size hold

theorem Logged.freed (h : Logged s log) (hp : s.requests p ≠ none)
    (ht : t.requests = Function.update s.requests p none) : Logged t (log ++ [.freed p]) := by
  refine ⟨AllocTrace.disciplined_snoc_iff.mpr ⟨h.disciplined, (h.live p).mpr hp⟩, ?_, ?_⟩
  · intro q
    rw [AllocTrace.owned_freed, ht]
    by_cases hq : q = p
    · simp [hq]
    · simp [hq, h.live]
  · intro q size hin
    rw [AllocTrace.blocks_snoc, AllocTrace.track, List.mem_filter] at hin
    exact h.sizes q size hin.1

theorem Logged.written (h : Logged s log) (hp : s.requests p ≠ none) {off len : Nat}
    (hfits : off + len ≤ requestSize) : Logged s (log ++ [.written p off len]) := by
  obtain ⟨⟨p', size⟩, hblock, hsame⟩ := List.mem_map.mp ((h.live p).mpr hp)
  cases hsame
  refine ⟨AllocTrace.disciplined_snoc_iff.mpr ⟨h.disciplined, size, hblock, ?_⟩, ?_, ?_⟩
  · rwa [h.sizes p' size hblock]
  · intro q
    rw [AllocTrace.owned_written, h.live]
  · intro q size hin
    rw [AllocTrace.blocks_snoc] at hin
    exact h.sizes q size hin

/-! ## The steps of a run -/

structure Inv (s : Server) (trace : List Seen) : Prop where
  safe : Seen.net .undefined ∉ trace
  log : Logged s (memory trace)
  settled : s.net.Settled
  accounted : s.phase ≠ .stopped → Accounted s

/-- A step that changes no request and no stream. -/
theorem Inv.quiet (inv : Inv s trace) (hsafe : Seen.net .undefined ∉ seen) (hmemory : memory seen = [])
    (hrequests : t.requests = s.requests) (hsettled : t.net.Settled)
    (haccounted : t.phase ≠ .stopped → Accounted t) : Inv t (trace ++ seen) := by
  refine ⟨?_, ?_, hsettled, haccounted⟩
  · rw [List.mem_append, not_or]
    exact ⟨inv.safe, hsafe⟩
  · rw [memory_append, hmemory, List.append_nil]
    exact inv.log.congr fun p => by rw [hrequests]

theorem Inv.net (inv : Inv s trace) {a : NetAction}
    (hstep : IoUringServer.step s (.net a) = some (t, seen)) : Inv t (trace ++ seen) := by
  obtain ⟨⟨net, es⟩, ha, heq⟩ := Option.map_eq_some_iff.mp hstep
  cases heq
  obtain ⟨hsettled, hlasts⟩ := inv.settled.act ha
  obtain ⟨hdefined, hfds⟩ := Sockets.act_defined ha
  refine inv.quiet ?_ (memory_net es) rfl hsettled ?_
  · simpa using hdefined
  · intro hphase
    have hold := inv.accounted hphase
    refine hold.same_requests (hold.separate.act ha) rfl rfl (fun _ => ⟨rfl, rfl⟩) hfds ?_
      (Or.inl rfl)
    intro id hended
    obtain ⟨hfin, hqueue⟩ := hlasts id hended.1
    exact ⟨hfin, hqueue.trans hended.2⟩

/-- A request is obtained and its operation queued. -/
theorem Inv.obtained (inv : Inv s trace) (hq : s.requests q = none) {req : IoRequest}
    (hrequests : t.requests = Function.update s.requests q (some req)) (hnet : t.net = s.net)
    (haccounted : Accounted t) : Inv t (trace ++ [.memory (.obtained q requestSize)]) := by
  refine ⟨?_, ?_, hnet ▸ inv.settled, fun _ => haccounted⟩
  · simpa using inv.safe
  · rw [memory_append, memory_memory]
    exact inv.log.obtained hq hrequests

theorem Inv.queueAccept (inv : Inv s trace)
    (hstep : IoUringServer.step s (.queueAccept q) = some (t, seen)) : Inv t (trace ++ seen) := by
  simp only [IoUringServer.step] at hstep
  split at hstep
  · rename_i hq hphase
    cases hstep
    have hold := inv.accounted (by simp [hphase])
    exact inv.obtained hq rfl rfl (hold.queueAccept hq ⟨rfl, rfl, fun _ hne => prepare_same hne⟩
      rfl (idle_prepare (hold.idle q hq)) (by rw [hphase]; rfl) rfl rfl)
  · rename_i hq hphase
    cases hstep
    have hold := inv.accounted (by simp [hphase])
    exact inv.obtained hq rfl rfl (hold.queueAccept hq ⟨rfl, rfl, fun _ hne => prepare_same hne⟩
      rfl (idle_prepare (hold.idle q hq)) (by rw [hphase]; rfl) rfl rfl)
  · cases hstep

theorem Inv.queueRead (inv : Inv s trace)
    (hstep : IoUringServer.step s (.queueRead q) = some (t, seen)) : Inv t (trace ++ seen) := by
  simp only [IoUringServer.step] at hstep
  split at hstep
  · rename_i p fd hq hphase
    cases hstep
    have hold := inv.accounted (by simp [hphase])
    exact inv.obtained hq rfl rfl (hold.queueRead hphase hq
      ⟨rfl, rfl, fun _ hne => prepare_same hne⟩ rfl (idle_prepare (hold.idle q hq)) rfl)
  · cases hstep

theorem Inv.deleteRequest (inv : Inv s trace)
    (hstep : IoUringServer.step s .deleteRequest = some (t, seen)) : Inv t (trace ++ seen) := by
  simp only [IoUringServer.step] at hstep
  split at hstep
  · rename_i p hphase
    have hold := inv.accounted (by simp [hphase])
    obtain ⟨buf, hp, -⟩ := hold.rearming_duty hphase
    rw [hp] at hstep
    cases hstep
    refine ⟨by simpa using inv.safe, ?_, inv.settled, fun _ =>
      hold.deleteRequest hphase ⟨rfl, rfl, fun _ _ => ⟨rfl, rfl⟩⟩ rfl rfl rfl⟩
    rw [memory_append, memory_memory]
    exact inv.log.freed (by simp [hp]) rfl
  · cases hstep

theorem Inv.requeue (inv : Inv s trace)
    (hstep : IoUringServer.step s .requeue = some (t, seen)) : Inv t (trace ++ seen) := by
  simp only [IoUringServer.step] at hstep
  split at hstep
  · rename_i p hphase
    have hold := inv.accounted (by simp [hphase])
    obtain ⟨fd, id, buf, hp, hidle, -⟩ := hold.received_duty hphase
    rw [hp] at hstep
    cases hstep
    have hrequests : Function.update s.requests p (some ⟨.read, fd, buf⟩) = s.requests := by
      rw [← hp, Function.update_eq_self]
    exact inv.quiet (by simp) rfl hrequests inv.settled fun _ => hold.requeue hphase hp
      ⟨rfl, rfl, fun _ hne => prepare_same hne⟩ rfl (idle_prepare hidle) rfl
  · cases hstep

/-- The kernel answers: an `accept` or a read of a request that is there. -/
theorem Inv.complete (inv : Inv s trace) {i : Nat} {outcome : Outcome}
    (hstep : IoUringServer.step s (.complete i outcome) = some (t, seen)) :
    Inv t (trace ++ seen) := by
  simp only [IoUringServer.step] at hstep
  cases hi : s.ring.inFlight[i]? with
  | none => simp [hi] at hstep
  | some entry =>
    obtain ⟨p, op⟩ := entry
    simp only [hi] at hstep
    by_cases hstopped : s.phase = .stopped
    · rw [if_pos hstopped] at hstep
      cases hstep
    rw [if_neg hstopped] at hstep
    have hold := inv.accounted hstopped
    obtain ⟨req, hp, hwaits⟩ := hold.waits_of_inFlight hi
    simp only [hp] at hstep
    obtain ⟨⟨net, req', res, seen'⟩, hperform, heq⟩ := Option.map_eq_some_iff.mp hstep
    cases heq
    have hanswered := (hwaits.complete hi res).2
    have hchanges : Changes s { setRequest s p (some req') with
        net := net, ring := s.ring.complete i p res } p (some req') :=
      ⟨rfl, rfl, fun _ hne => RequestRing.complete_same hi hne⟩
    have hlive : s.requests p ≠ none := by simp [hp]
    have hlogged : ∀ log, Logged s log → Logged { setRequest s p (some req') with
        net := net, ring := s.ring.complete i p res } log := by
      intro log hlog
      refine hlog.congr fun q => ?_
      by_cases hq : q = p
      · simp [setRequest, hq, hp]
      · simp [setRequest, hq]
    rcases (hold.duty p req hp).of_waits hwaits with ⟨buf, rfl, rfl⟩ |
      ⟨buf, fd, id, rfl, rfl, hfd, hsize⟩
    · obtain ⟨rfl, ⟨newFd, haccept, hres, rfl⟩ | ⟨rfl, hneg, rfl⟩⟩ := perform_accept hperform
      · refine ⟨by simpa using inv.safe, ?_, ?_, fun _ =>
          hold.completeAccept hp hwaits hchanges hanswered rfl (Or.inl ⟨newFd, haccept, hres⟩)⟩
        · rw [memory_append, memory_memory]
          exact hlogged _ (inv.log.written hlive (by decide))
        · intro id
          rw [show net.conns = s.net.conns from (Sockets.accept_spec haccept).2.1]
          exact inv.settled id
      · exact ⟨by simpa using inv.safe, by simpa using hlogged _ inv.log, inv.settled, fun _ =>
          hold.completeAccept hp hwaits hchanges hanswered rfl (Or.inr ⟨rfl, hneg⟩)⟩
    · obtain ⟨type', fd', buf'⟩ := req'
      obtain ⟨htype, hfd', hsize', hcases⟩ := perform_recv hfd hsize hperform
      cases htype
      cases hfd'
      rcases hcases with ⟨data, rest, hqueue, hdata, hfits, rfl, -, rfl, rfl⟩ | ⟨rfl, -, rfl, hends⟩
      · refine ⟨by simpa using inv.safe, ?_, inv.settled.set (inv.settled id), fun _ =>
          hold.completeRead hp hfd hwaits hchanges hsize' hanswered rfl
            (hold.separate.congr rfl rfl rfl) rfl (fun id' hne => Function.update_of_ne hne ..) ?_⟩
        · rw [memory_append, memory_memory]
          exact hlogged _ (inv.log.written hlive (Nat.add_le_add_left hfits _))
        · intro hzero
          exact absurd (List.length_eq_zero_iff.mp (Int.natCast_eq_zero.mp hzero)) hdata
      · refine ⟨by simpa using inv.safe, by simpa using hlogged _ inv.log, inv.settled, fun _ =>
          hold.completeRead hp hfd hwaits hchanges hsize' hanswered rfl hold.separate rfl
            (fun _ _ => rfl) ?_⟩
        intro hzero
        rcases hends with ⟨-, hended⟩ | ⟨hneg, -⟩
        · exact hended
        · omega

/-- A completion is taken: its request goes into the hands of `main`, or is freed with its
descriptor closed. -/
theorem Inv.peek (inv : Inv s trace)
    (hstep : IoUringServer.step s .peek = some (t, seen)) : Inv t (trace ++ seen) := by
  simp only [IoUringServer.step] at hstep
  split at hstep
  · rename_i p res rest hphase hcompleted
    have hold := inv.accounted (by simp [hphase])
    obtain ⟨req, hp, hanswered⟩ := hold.answered_of_completed hcompleted
    have hidle := (hanswered.take hcompleted).2
    have hring : ∀ q, q ≠ p → s.ring.Same s.ring.take q :=
      fun _ hne => RequestRing.take_same hcompleted hne
    simp only [hp] at hstep
    rcases (hold.duty p req hp).of_answered hanswered with ⟨buf, rfl, -⟩ |
      ⟨buf, fd, id, rfl, hfd, hsize, -⟩
    · have hkept : s.requests = Function.update s.requests p (some ⟨.accept, s.listenFd, buf⟩) := by
        rw [← hp, Function.update_eq_self]
      by_cases hres : 0 ≤ res
      · simp only [handle, hres, if_true] at hstep
        cases hstep
        exact inv.quiet (by simp) rfl rfl inv.settled fun _ => hold.takeAccept hp hanswered hphase
          ⟨hkept, rfl, hring⟩ rfl hidle (if_pos hres).symm
      · simp only [handle, hres, if_false] at hstep
        cases hstep
        exact inv.quiet (by simp) rfl rfl inv.settled fun _ => hold.takeAccept hp hanswered hphase
          ⟨hkept, rfl, hring⟩ rfl hidle (if_neg hres).symm
    · have hkept : s.requests = Function.update s.requests p (some ⟨.read, fd, buf⟩) := by
        rw [← hp, Function.update_eq_self]
      by_cases hres : 0 < res
      · simp only [handle, hres, if_true, hfd] at hstep
        cases hstep
        exact inv.quiet (by simp) rfl rfl inv.settled fun _ => hold.takeOctets hp hfd hsize hphase
          ⟨hkept, rfl, hring⟩ rfl hidle rfl
      · simp only [handle, hres, if_false] at hstep
        cases hstep
        obtain ⟨hconns, -, -, hclosed⟩ := Sockets.close_spec hfd
        refine ⟨?_, ?_, ?_, fun _ => hold.takeEnd hp hfd hphase ⟨rfl, rfl, hring⟩ rfl hidle hphase⟩
        · rw [hclosed]
          simpa using inv.safe
        · rw [memory_append, memory_append, memory_net, memory_memory, List.nil_append]
          exact inv.log.freed (by simp [hp]) rfl
        · intro id'
          rw [hconns]
          exact inv.settled id'
  · cases hstep

theorem Inv.step (inv : Inv s trace) {a : Action}
    (hstep : IoUringServer.step s a = some (t, seen)) : Inv t (trace ++ seen) := by
  cases a with
  | net a => exact inv.net hstep
  | queueAccept q => exact inv.queueAccept hstep
  | submitAndWait =>
    simp only [IoUringServer.step] at hstep
    split at hstep
    · rename_i hphase
      cases hstep
      have hold := inv.accounted (by simp [hphase])
      exact inv.quiet (by simp) rfl rfl inv.settled fun _ => hold.same_requests hold.separate rfl
        rfl (fun _ => RequestRing.submit_same) rfl (fun _ hended => hended)
        (Or.inr (by rw [hphase]; exact ⟨rfl, rfl, rfl⟩))
    · cases hstep
  | complete i outcome => exact inv.complete hstep
  | peek => exact inv.peek hstep
  | peekNone =>
    simp only [IoUringServer.step] at hstep
    split at hstep
    · rename_i hphase _
      cases hstep
      have hold := inv.accounted (by simp [hphase])
      exact inv.quiet (by simp) rfl rfl inv.settled fun _ => hold.same_requests hold.separate rfl
        rfl (fun _ => ⟨rfl, rfl⟩) rfl (fun _ hended => hended)
        (Or.inr (by rw [hphase]; exact ⟨rfl, rfl, rfl⟩))
    · cases hstep
  | queueRead q => exact inv.queueRead hstep
  | deleteRequest => exact inv.deleteRequest hstep
  | requeue => exact inv.requeue hstep
  | throws =>
    simp only [IoUringServer.step] at hstep
    split at hstep <;> first
      | cases hstep
        exact inv.quiet (by simp) rfl rfl inv.settled fun hgoes => absurd rfl hgoes
      | cases hstep

theorem inv_start (listenFd : Nat) : Inv (start listenFd) [] := by
  refine ⟨by simp, ⟨AllocTrace.disciplined_nil, ?_, nofun⟩, Sockets.settled_empty, fun _ => ?_⟩
  · simp [start]
  · exact ⟨Sockets.separate_empty, nofun, fun _ _ => ⟨rfl, rfl⟩, nofun, nofun, nofun, nofun⟩

theorem inv_of_run {listenFd : Nat} {actions : List Action}
    (run : machine.Run (start listenFd) actions t trace) : Inv t trace :=
  run.invariant (I := Inv) (inv_start listenFd) fun inv hstep => inv.step hstep

/-! ## The requests of a run -/

/-- The requests of a server that has not stopped. -/
structure InService (s : Server) : Prop where
  oneAccept : arms s.phase = false →
    ∃! p, ∃ buf, s.requests p = some ⟨.accept, s.listenFd, buf⟩
  oneRead : ∀ fd id, s.net.fds fd = some id → ¬HandedOver s fd →
    ∃! p, ∃ buf, s.requests p = some ⟨.read, fd, buf⟩
  onlyOpen : ∀ p fd buf, s.requests p = some ⟨.read, fd, buf⟩ → s.net.fds fd ≠ none
  oneOperation : ∀ p, s.requests p ≠ none →
    (s.ring.ops p).length + (s.ring.answers p).length = if inHand s.phase = some p then 0 else 1
  noneForFreed : ∀ p, s.requests p = none → s.ring.ops p = [] ∧ s.ring.answers p = []

theorem inService_of_accounted (h : Accounted s) : InService s := by
  constructor
  · intro harms
    have harmed := h.armed
    rw [harms] at harmed
    obtain ⟨p, buf, hp⟩ := harmed
    refine ⟨p, ⟨buf, hp⟩, ?_⟩
    intro q hother
    obtain ⟨_, hq⟩ := hother
    exact h.acceptor_eq hp hq
  · intro fd id hfd hnot
    rcases h.served fd id hfd with ⟨p, buf, hp⟩ | hgiven
    · refine ⟨p, ⟨buf, hp⟩, ?_⟩
      intro q hother
      obtain ⟨_, hq⟩ := hother
      exact h.single q p _ _ hq hp rfl rfl
    · exact absurd hgiven hnot
  · intro p fd buf hp
    obtain ⟨id, hfd, -⟩ := h.read_open hp
    simp [hfd]
  · intro p hlive
    obtain ⟨req, hp⟩ := Option.ne_none_iff_exists'.mp hlive
    by_cases hin : inHand s.phase = some p
    · obtain ⟨-, hidle⟩ := h.hand p hin
      rw [if_pos hin, hidle.ops, hidle.answers]
      rfl
    · rw [if_neg hin]
      rcases (h.duty p req hp).ring_state with ⟨op, hwaits⟩ | ⟨res, hanswered⟩ | hidle
      · rw [hwaits.ops, hwaits.answers]
        rfl
      · rw [hanswered.ops, hanswered.answers]
        rfl
      · refine absurd ?_ hin
        rcases (h.duty p req hp).of_idle hidle with ⟨_, _, _, hphase, _⟩ | ⟨_, _, hphase⟩ |
          ⟨_, _, _, _, hphase, _⟩ <;> rw [hphase] <;> rfl
  · intro p hp
    exact ⟨(h.idle p hp).ops, (h.idle p hp).answers⟩

/-- Whatever clients, network and kernel do, no request is touched that is not there or freed
twice, the requests there are those of the log that have not been freed, and while the server
runs each is out with one operation. -/
theorem requests_accounted {listenFd : Nat} {actions : List Action}
    (run : machine.Run (start listenFd) actions t trace) :
    Seen.net .undefined ∉ trace ∧ AllocTrace.Disciplined (memory trace) ∧
      (∀ p, p ∈ AllocTrace.owned (memory trace) ↔ t.requests p ≠ none) ∧
      (t.phase ≠ .stopped → InService t) := by
  have inv := inv_of_run run
  exact ⟨inv.safe, inv.log.disciplined, inv.log.live,
    fun hgoes => inService_of_accounted (inv.accounted hgoes)⟩

/-- A client connects, sends two octets and closes; its request takes the place of the first
`accept`'s, whose address the second one gets. -/
theorem requests_accounted_one_client :
    ∃ t trace, machine.Run (start 3)
      [.queueAccept 100, .submitAndWait, .net (.connect 7), .complete 0 (.accepted 4), .peek,
        .queueRead 101, .deleteRequest, .queueAccept 100, .peekNone, .submitAndWait,
        .net (.send 7 [104, 105]), .net (.deliver 7 2), .complete 0 (.received 2), .peek, .requeue,
        .peekNone, .submitAndWait, .net (.finish 7), .net (.deliverFin 7), .complete 1 .ended,
        .peek] t trace ∧
      Seen.net .undefined ∉ trace ∧ AllocTrace.Disciplined (memory trace) ∧
      (∀ p, p ∈ AllocTrace.owned (memory trace) ↔ t.requests p ≠ none) ∧
      (t.phase ≠ .stopped → InService t) := by
  have run := machine.run_of_isSome (start 3)
    [.queueAccept 100, .submitAndWait, .net (.connect 7), .complete 0 (.accepted 4), .peek,
      .queueRead 101, .deleteRequest, .queueAccept 100, .peekNone, .submitAndWait,
      .net (.send 7 [104, 105]), .net (.deliver 7 2), .complete 0 (.received 2), .peek, .requeue,
      .peekNone, .submitAndWait, .net (.finish 7), .net (.deliverFin 7), .complete 1 .ended,
      .peek] (by decide)
  exact ⟨_, _, run, requests_accounted run⟩

end CppCodes.Guarantees.RequestOwnership
