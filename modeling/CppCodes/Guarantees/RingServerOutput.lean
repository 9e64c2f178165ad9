import CppCodes.Guarantees.RequestOwnership
import CppCodes.Guarantees.StreamOutput

/-!
# What the io_uring server writes

A read moves octets from the socket to the buffer of a request some time before `main`
writes them out. With the octets in the buffers counted as unread, the server reads a
connection when it writes, as the other two servers do.
-/

set_option autoImplicit false

namespace CppCodes.Guarantees.RingServerOutput

open Library
open Source.Net
open Source.Net.IoUringServer
open RequestOwnership StreamOutput

variable {s t : Server} {p q : Ptr} {trace seen : List Seen}

/-! ## Octets between the sockets and the output -/

/-- What a completion that has not been taken brings of the connection. -/
def heldBy (s : Server) (id : Nat) (entry : Ptr × Int) : List UInt8 :=
  match s.requests entry.1 with
  | none => []
  | some req =>
      if req.type = .read ∧ s.net.fds req.fd = some id then req.buffer.take entry.2.toNat else []

def held (s : Server) (id : Nat) : List UInt8 := (s.ring.completed.map (heldBy s id)).flatten

def unread (s : Server) : Sockets := s.net.prepend (held s)

theorem heldBy_of_accept {buf : List UInt8} {fd id : Nat} {res : Int}
    (hp : s.requests p = some ⟨.accept, fd, buf⟩) : heldBy s id (p, res) = [] := by
  simp [heldBy, hp]

theorem heldBy_of_read {buf : List UInt8} {fd id id' : Nat} {res : Int}
    (hp : s.requests p = some ⟨.read, fd, buf⟩) (hfd : s.net.fds fd = some id') :
    heldBy s id (p, res) = if id' = id then buf.take res.toNat else [] := by
  simp [heldBy, hp, hfd]

theorem held_congr {id : Nat} (hcompleted : t.ring.completed = s.ring.completed)
    (hsame : ∀ entry ∈ s.ring.completed, heldBy t id entry = heldBy s id entry) :
    held t id = held s id := by
  rw [held, held, hcompleted, List.map_congr_left hsame]

theorem held_cons {id : Nat} {entry : Ptr × Int} {rest : List (Ptr × Int)}
    (hcompleted : s.ring.completed = entry :: rest) :
    held s id = heldBy s id entry ++ (rest.map (heldBy s id)).flatten := by
  simp [held, hcompleted]

/-- The streams go on as they are when neither buffers nor sockets change. -/
theorem flow_quiet (flow : (unread s).Flow (network trace)) (hconns : t.net.conns = s.net.conns)
    (hheld : ∀ id, held t id = held s id) (hsent : ∀ id, sent id (network seen) = [])
    (houtput : ∀ id, output id (network seen) = []) :
    (unread t).Flow (network (trace ++ seen)) := by
  rw [network_append]
  refine flow.quiet ?_ hsent houtput
  funext id
  simp only [unread, Sockets.prepend, hheld, hconns]

/-! ## What each step does to the octets -/

/-- The request of a completion is not one that is idle or waits. -/
theorem ne_of_completed {r : RequestRing Ptr Sqe Int} {entry : Ptr × Int}
    (hnone : r.answers p = []) (hin : entry ∈ r.completed) : entry.1 ≠ p := by
  rintro rfl
  have hres := RequestRing.mem_answers_of_mem hin
  rw [hnone] at hres
  cases hres

theorem heldBy_congr (h : Accounted s) {id : Nat} {entry : Ptr × Int}
    (hin : entry ∈ s.ring.completed) (hrequest : t.requests entry.1 = s.requests entry.1)
    (hopen : ∀ fd buf, s.requests entry.1 = some ⟨.read, fd, buf⟩ → t.net.fds fd = s.net.fds fd) :
    heldBy t id entry = heldBy s id entry := by
  obtain ⟨⟨type, fd, buf⟩, hp, -⟩ := h.answered_of_mem hin
  simp only [heldBy, hrequest, hp]
  cases type with
  | accept => simp
  | read => rw [hopen fd buf hp]

/-- A request that is idle changes. -/
theorem held_of_idle (h : Accounted s) (hidle : s.ring.Idle p)
    (hcompleted : t.ring.completed = s.ring.completed)
    (hrequests : ∀ q, q ≠ p → t.requests q = s.requests q) (hnet : t.net = s.net) (id : Nat) :
    held t id = held s id := by
  refine held_congr hcompleted fun entry hin => ?_
  exact heldBy_congr h hin (hrequests _ (ne_of_completed hidle.answers hin))
    fun _ _ _ => by rw [hnet]

/-- The kernel answers a request that waits. -/
theorem held_of_waits (res : Int) (h : Accounted s) {op : Sqe} (hwaits : s.ring.Waits p op)
    (hcompleted : t.ring.completed = s.ring.completed ++ [(p, res)])
    (hrequests : ∀ q, q ≠ p → t.requests q = s.requests q)
    (hopen : ∀ fd, s.net.fds fd ≠ none → t.net.fds fd = s.net.fds fd) (id : Nat) :
    held t id = held s id ++ heldBy t id (p, res) := by
  have hsame : ∀ entry ∈ s.ring.completed, heldBy t id entry = heldBy s id entry := by
    intro entry hin
    refine heldBy_congr h hin (hrequests _ (ne_of_completed hwaits.answers hin)) ?_
    intro fd buf hread
    obtain ⟨id', hfd, -⟩ := h.read_open hread
    exact hopen fd (by simp [hfd])
  rw [held, held, hcompleted, List.map_append, List.flatten_append, List.map_congr_left hsame]
  simp

/-- A completion is taken. -/
theorem held_of_taken (h : Accounted s) {res : Int} {rest : List (Ptr × Int)}
    (hcompleted : s.ring.completed = (p, res) :: rest) (htaken : t.ring.completed = rest)
    (hrequests : ∀ q, q ≠ p → t.requests q = s.requests q)
    (hopen : ∀ q fd buf, q ≠ p → s.requests q = some ⟨.read, fd, buf⟩ →
      t.net.fds fd = s.net.fds fd) (id : Nat) :
    held s id = heldBy s id (p, res) ++ held t id := by
  obtain ⟨req, hp, hanswered⟩ := h.answered_of_completed hcompleted
  have hidle := (hanswered.take hcompleted).2
  rw [held_cons hcompleted, held, htaken]
  congr 2
  refine (List.map_congr_left fun entry hin => ?_).symm
  have hne : entry.1 ≠ p := by
    refine ne_of_completed hidle.answers ?_
    rwa [RequestRing.take, hcompleted]
  exact heldBy_congr h (by rw [hcompleted]; exact List.mem_cons_of_mem _ hin) (hrequests _ hne)
    fun fd buf hread => hopen _ fd buf hne hread

/-- The read that brings nothing is the only completion about its connection. -/
theorem held_of_end (h : Accounted s) {fd id : Nat} {buf : List UInt8} {res : Int}
    (hp : s.requests p = some ⟨.read, fd, buf⟩) (hfd : s.net.fds fd = some id)
    (hanswered : s.ring.Answered p res) (hres : res.toNat = 0) : held s id = [] := by
  rw [held, List.flatten_eq_nil_iff]
  intro octets hin
  obtain ⟨⟨q, res'⟩, hentry, rfl⟩ := List.mem_map.mp hin
  obtain ⟨req, hq, hanswered'⟩ := h.answered_of_mem hentry
  by_cases hsame : q = p
  · subst hsame
    have hanswers := hanswered.answers
    rw [hanswered'.answers] at hanswers
    cases hanswers
    rw [heldBy_of_read hp hfd, hres]
    simp
  · simp only [heldBy, hq]
    refine if_neg fun hboth => hsame ?_
    obtain ⟨htype, hfd'⟩ := hboth
    exact h.single q p req _ hq hp htype (h.separate.single _ _ id hfd' hfd)

theorem flow_net (flow : (unread s).Flow (network trace)) {a : NetAction}
    (hstep : IoUringServer.step s (.net a) = some (t, seen)) :
    (unread t).Flow (network (trace ++ seen)) ∧ Shows (unread s) True (network seen) := by
  obtain ⟨⟨net, es⟩, ha, heq⟩ := Option.map_eq_some_iff.mp hstep
  cases heq
  have hheld : held { s with net := net } = held s := by
    funext id
    refine held_congr rfl fun entry _ => ?_
    simp only [heldBy, (Sockets.act_defined ha).2]
  obtain ⟨hflow, -, hseen⟩ := Sockets.act_spec flow (Sockets.act_prepend (held s) ha)
  rw [network_append, network_net, unread, hheld]
  exact ⟨hflow, Sockets.External.shows trivial hseen⟩

theorem flow_complete (inv : Inv s trace) (flow : (unread s).Flow (network trace)) {i : Nat}
    {outcome : Outcome} (hstep : IoUringServer.step s (.complete i outcome) = some (t, seen)) :
    (unread t).Flow (network (trace ++ seen)) ∧ network seen = [] := by
  simp only [IoUringServer.step] at hstep
  cases hi : s.ring.inFlight[i]? with
  | none => simp [hi] at hstep
  | some entry =>
    obtain ⟨p, op⟩ := entry
    simp only [hi] at hstep
    by_cases hstopped : s.phase = .stopped
    · rw [if_pos hstopped] at hstep
      cases hstep
    rw [if_neg hstopped] at hstep
    have hold := inv.accounted hstopped
    obtain ⟨req, hp, hwaits⟩ := hold.waits_of_inFlight hi
    simp only [hp] at hstep
    obtain ⟨⟨net, req', res, seen'⟩, hperform, heq⟩ := Option.map_eq_some_iff.mp hstep
    cases heq
    have hheld := fun hopen => held_of_waits (t := { setRequest s p (some req') with
      net := net, ring := s.ring.complete i p res }) res hold hwaits rfl
      (fun q hne => Function.update_of_ne hne ..) hopen
    rcases (hold.duty p req hp).of_waits hwaits with ⟨buf, rfl, rfl⟩ |
      ⟨buf, fd, id, rfl, rfl, hfd, hsize⟩
    · obtain ⟨rfl, hcases⟩ := perform_accept hperform
      have hnone : ∀ id, heldBy { setRequest s p (some ⟨.accept, s.listenFd, buf⟩) with
          net := net, ring := s.ring.complete i p res } id (p, res) = [] :=
        fun id => heldBy_of_accept (Function.update_self ..)
      rcases hcases with ⟨newFd, haccept, -, rfl⟩ | ⟨rfl, -, rfl⟩
      · obtain ⟨hfree, hconns, hothers⟩ := Sockets.accept_spec haccept
        refine ⟨flow_quiet flow hconns (fun id => ?_) (fun _ => rfl) (fun _ => rfl), rfl⟩
        rw [hheld (fun fd hopen => hothers fd fun hsame => hopen (hsame ▸ hfree)), hnone,
          List.append_nil]
      · refine ⟨flow_quiet flow rfl (fun id => ?_) (fun _ => rfl) (fun _ => rfl), rfl⟩
        rw [hheld (fun _ _ => rfl), hnone, List.append_nil]
    · obtain ⟨type', fd', buf'⟩ := req'
      obtain ⟨htype, hfd', -, hcases⟩ := perform_recv hfd hsize hperform
      cases htype
      cases hfd'
      have hown : net.fds = s.net.fds → ∀ id', heldBy { setRequest s p (some ⟨.read, fd, buf'⟩) with
          net := net, ring := s.ring.complete i p res } id' (p, res) =
            if id = id' then buf'.take res.toNat else [] :=
        fun hfds _ => heldBy_of_read (Function.update_self ..) ((congrFun hfds fd).trans hfd)
      rcases hcases with ⟨data, rest, hqueue, -, -, rfl, hbuf, rfl, rfl⟩ | ⟨rfl, -, rfl, hends⟩
      · rw [network_append]
        refine ⟨flow.quiet ?_ (fun _ => rfl) (fun _ => rfl), rfl⟩
        funext id'
        simp only [unread, Sockets.prepend]
        rw [hheld (fun _ _ => rfl), hown rfl]
        by_cases hsame : id = id'
        · subst hsame
          rw [if_pos rfl, Int.toNat_natCast, hbuf]
          simp [Sockets.set, hqueue]
        · rw [if_neg hsame, List.append_nil]
          simp [Sockets.set, Ne.symm hsame]
      · refine ⟨flow_quiet flow rfl (fun id' => ?_) (fun _ => rfl) (fun _ => rfl), rfl⟩
        have hres : res.toNat = 0 := by
          rcases hends with ⟨rfl, -⟩ | ⟨hneg, -⟩
          · rfl
          · omega
        rw [hheld (fun _ _ => rfl), hown rfl, hres]
        simp

/-- No read that failed is taken. -/
def NoFailedRead (s : Server) : Action → Prop
  | .peek =>
      match s.ring.completed with
      | [] => True
      | (p, res) :: _ =>
          match s.requests p with
          | some ⟨.read, _, _⟩ => 0 ≤ res
          | _ => True
  | _ => True

instance (s : Server) (a : Action) : Decidable (NoFailedRead s a) := by
  unfold NoFailedRead
  split
  · split
    · infer_instance
    · split <;> infer_instance
  · infer_instance

/-- Taking a completion writes what it brings, or closes a descriptor that brings no more. -/
theorem flow_peek (inv : Inv s trace) (flow : (unread s).Flow (network trace))
    (hstep : IoUringServer.step s .peek = some (t, seen)) :
    (unread t).Flow (network (trace ++ seen)) ∧
      (NoFailedRead s .peek → Shows (unread s) True (network seen)) := by
  simp only [IoUringServer.step] at hstep
  split at hstep
  · rename_i p res rest hphase hcompleted
    have hold := inv.accounted (by simp [hphase])
    obtain ⟨req, hp, hanswered⟩ := hold.answered_of_completed hcompleted
    have htaken : s.ring.take.completed = rest := by
      rw [RequestRing.take, hcompleted]
      rfl
    simp only [hp] at hstep
    rcases (hold.duty p req hp).of_answered hanswered with ⟨buf, rfl, -⟩ |
      ⟨buf, fd, id, rfl, hfd, -, hended⟩
    · have hheld : ∀ {u : Server}, u.ring = s.ring.take → u.requests = s.requests →
          u.net = s.net → ∀ id, held u id = held s id := by
        intro u hring hrequests hnet id
        rw [held_of_taken (t := u) hold hcompleted (by rw [hring, htaken])
          (fun _ _ => by rw [hrequests]) (fun _ _ _ _ _ => by rw [hnet]), heldBy_of_accept hp,
          List.nil_append]
      by_cases hres : 0 ≤ res
      · simp only [handle, hres, if_true] at hstep
        cases hstep
        exact ⟨flow_quiet flow rfl (hheld rfl rfl rfl) (fun _ => rfl) fun _ => rfl,
          fun _ => .nothing trivial⟩
      · simp only [handle, hres, if_false] at hstep
        cases hstep
        exact ⟨flow_quiet flow rfl (hheld rfl rfl rfl) (fun _ => rfl) fun _ => rfl,
          fun _ => .nothing trivial⟩
    · have hown : ∀ id', heldBy s id' (p, res) = if id = id' then buf.take res.toNat else [] :=
        fun id' => heldBy_of_read hp hfd
      by_cases hres : 0 < res
      · simp only [handle, hres, if_true, hfd] at hstep
        cases hstep
        have hheld := held_of_taken (t := { s with ring := s.ring.take, phase := .received p }) hold
          hcompleted htaken (fun _ _ => rfl) fun _ _ _ _ _ => rfl
        have hread : ((unread s).read id (buf.take res.toNat).length).1.Flow (network trace ++
            ((unread s).read id (buf.take res.toNat).length).2) := Sockets.flow_read flow
        have hqueue : ((unread s).conns id).queue = buf.take res.toNat ++
            ((unread { s with ring := s.ring.take, phase := .received p }).conns id).queue := by
          simp only [unread, Sockets.prepend, hheld id, hown, if_true, List.append_assoc]
        refine ⟨?_, fun _ => .other _ (by simp) trivial⟩
        rw [network_append]
        have hconns : (unread { s with ring := s.ring.take, phase := .received p }).conns =
            ((unread s).read id (buf.take res.toNat).length).1.conns := by
          funext id'
          by_cases hsame : id' = id
          · subst hsame
            simp only [Sockets.read, Sockets.set, Function.update_self, hqueue, List.drop_left]
            rfl
          · simp only [Sockets.read, Sockets.set, Function.update_of_ne hsame]
            simp only [unread, Sockets.prepend, hheld id', hown, if_neg (Ne.symm hsame),
              List.nil_append]
        have hseen : ((unread s).read id (buf.take res.toNat).length).2 =
            [.output id (buf.take res.toNat)] := by
          simp only [Sockets.read, hqueue, List.take_left]
        rw [hseen] at hread
        intro id'
        rw [hconns]
        exact hread id'
      · simp only [handle, hres, if_false] at hstep
        cases hstep
        obtain ⟨hconns, -, hothers, hclosed⟩ := Sockets.close_spec hfd
        have hzero : res.toNat = 0 := by omega
        have hheld := held_of_taken (t := { setRequest { s with ring := s.ring.take } p none with
            net := (s.net.close fd).1 }) hold hcompleted htaken
          (fun _ hne => Function.update_of_ne hne ..) fun q fd' buf' hne hq => hothers fd' fun hsame =>
            hne (hold.single q p _ _ hq hp rfl hsame)
        have hseen : network ((s.net.close fd).2.map Seen.net ++ [.memory (.freed p)]) =
            [.closed id] := by
          rw [network_append, network_net, hclosed]
          rfl
        constructor
        · refine flow_quiet flow hconns (fun id' => ?_) (fun id' => ?_) fun id' => ?_
          · rw [hheld id', hown, hzero]
            simp
          · rw [hseen]
            rfl
          · rw [hseen]
            rfl
        · intro hclean
          have hnonneg : 0 ≤ res := by
            simpa only [NoFailedRead, hcompleted, hp] using hclean
          obtain ⟨hfin, hqueue⟩ := hended (by omega)
          rw [hseen]
          refine .close id hfin (iff_of_true ?_ trivial)
          simp only [unread, Sockets.prepend, held_of_end hold hp hfd hanswered hzero, hqueue,
            List.append_nil]
  · cases hstep

/-- A request that is idle or not there is queued or deleted: the streams stay as they are. -/
theorem flow_idle (h : Accounted s) (flow : (unread s).Flow (network trace)) (hidle : s.ring.Idle p)
    (hcompleted : t.ring.completed = s.ring.completed)
    (hrequests : ∀ q, q ≠ p → t.requests q = s.requests q) (hnet : t.net = s.net)
    (hseen : network seen = []) :
    (unread t).Flow (network (trace ++ seen)) ∧ network seen = [] := by
  refine ⟨flow_quiet flow (by rw [hnet]) (held_of_idle h hidle hcompleted hrequests hnet) ?_ ?_,
    hseen⟩ <;> intro id <;> rw [hseen] <;> rfl

theorem completed_prepare {r : RequestRing Ptr Sqe Int} {op : Sqe} :
    ((getSqe r).prepare p op).completed = r.completed := by
  unfold getSqe
  split <;> rfl

/-- The other calls of `main` write nothing and close nothing. -/
theorem flow_main (inv : Inv s trace) (flow : (unread s).Flow (network trace)) {a : Action}
    (ha : a = .submitAndWait ∨ a = .peekNone ∨ a = .deleteRequest ∨ a = .requeue ∨ a = .throws ∨
      ∃ q, a = .queueAccept q ∨ a = .queueRead q)
    (hstep : IoUringServer.step s a = some (t, seen)) :
    (unread t).Flow (network (trace ++ seen)) ∧ network seen = [] := by
  have hsame : ∀ {u : Server}, u.ring.completed = s.ring.completed → u.requests = s.requests →
      u.net = s.net → (unread u).Flow (network (trace ++ [])) ∧ network [] = [] := by
    intro u hcompleted hrequests hnet
    refine ⟨flow_quiet flow (by rw [hnet]) (fun id => held_congr hcompleted fun entry _ => ?_)
      (fun _ => rfl) (fun _ => rfl), rfl⟩
    simp only [heldBy, hrequests, hnet]
  rcases ha with rfl | rfl | rfl | rfl | rfl | ⟨q, rfl | rfl⟩ <;>
    simp only [IoUringServer.step] at hstep
  · split at hstep <;> cases hstep
    exact hsame rfl rfl rfl
  · split at hstep <;> cases hstep
    exact hsame rfl rfl rfl
  · split at hstep
    · rename_i p hphase
      have hold := inv.accounted (by simp [hphase])
      obtain ⟨buf, hp, hidle⟩ := hold.rearming_duty hphase
      rw [hp] at hstep
      cases hstep
      exact flow_idle hold flow hidle rfl (fun q hne => Function.update_of_ne hne ..) rfl rfl
    · cases hstep
  · split at hstep
    · rename_i p hphase
      have hold := inv.accounted (by simp [hphase])
      obtain ⟨fd, id, buf, hp, hidle, -⟩ := hold.received_duty hphase
      rw [hp] at hstep
      cases hstep
      exact flow_idle hold flow hidle completed_prepare
        (fun q hne => Function.update_of_ne hne ..) rfl rfl
    · cases hstep
  · split at hstep <;> first
      | cases hstep
        exact hsame rfl rfl rfl
      | cases hstep
  · split at hstep <;> first
      | rename_i hq hphase
        cases hstep
        have hold := inv.accounted (by simp [hphase])
        exact flow_idle hold flow (hold.idle q hq) completed_prepare
          (fun q hne => Function.update_of_ne hne ..) rfl rfl
      | cases hstep
  · split at hstep
    · rename_i hq hphase
      cases hstep
      have hold := inv.accounted (by simp [hphase])
      exact flow_idle hold flow (hold.idle q hq) completed_prepare
        (fun q hne => Function.update_of_ne hne ..) rfl rfl
    · cases hstep

theorem flow_step (inv : Inv s trace) (flow : (unread s).Flow (network trace)) {a : Action}
    (hstep : IoUringServer.step s a = some (t, seen)) :
    (unread t).Flow (network (trace ++ seen)) ∧
      (NoFailedRead s a → Shows (unread s) True (network seen)) := by
  have hsilent : (unread t).Flow (network (trace ++ seen)) ∧ network seen = [] →
      (unread t).Flow (network (trace ++ seen)) ∧
        (NoFailedRead s a → Shows (unread s) True (network seen)) := by
    rintro ⟨hflow, hnone⟩
    rw [hnone]
    exact ⟨hflow, fun _ => .nothing trivial⟩
  cases a with
  | net a =>
    obtain ⟨hflow, hshows⟩ := flow_net flow hstep
    exact ⟨hflow, fun _ => hshows⟩
  | complete i outcome => exact hsilent (flow_complete inv flow hstep)
  | peek => exact flow_peek inv flow hstep
  | submitAndWait | peekNone | deleteRequest | requeue | throws | queueAccept q | queueRead q =>
    exact hsilent (flow_main inv flow (by simp) hstep)

/-! ## The streams of a run -/

theorem flow_of_run {listenFd : Nat} {actions : List Action}
    (run : machine.Run (start listenFd) actions t trace) :
    Inv t trace ∧ (unread t).Flow (network trace) :=
  run.invariant (I := fun s trace => Inv s trace ∧ (unread s).Flow (network trace))
    ⟨inv_start listenFd, fun _ => ⟨rfl, Bool.noConfusion, Bool.noConfusion⟩⟩
    fun hboth hstep => ⟨hboth.1.step hstep, (flow_step hboth.1 hboth.2 hstep).1⟩

theorem complete_of_run {listenFd : Nat} {actions : List Action}
    (run : machine.Run (start listenFd) actions t trace)
    (hclean : machine.StepsMeet NoFailedRead (start listenFd) actions) :
    Complete (network trace) := by
  refine (run.invariant_of_steps (I := fun s trace => (Inv s trace ∧
    (unread s).Flow (network trace)) ∧ Complete (network trace))
    ⟨flow_of_run (Machine.Run.nil _), complete_nil⟩ ?_ hclean).2
  intro s trace a t seen hboth hgood hstep
  obtain ⟨⟨inv, flow⟩, hcomplete⟩ := hboth
  obtain ⟨hflow, hshows⟩ := flow_step inv flow hstep
  refine ⟨⟨inv.step hstep, hflow⟩, ?_⟩
  rw [network_append] at hflow ⊢
  exact ((hshows hgood).complete_iff flow hflow).mpr ⟨hcomplete, trivial⟩

/-- What the server has written of a client's stream is always the beginning of it; what it has
taken off the socket and not written is in the buffers of completions it has not taken; and when
no read fails, a descriptor is closed once all of the stream is written. -/
theorem ring_server_writes_streams {listenFd : Nat} {actions : List Action}
    (run : machine.Run (start listenFd) actions t trace) :
    (∀ id, output id (network trace) <+: sent id (network trace)) ∧
      (∀ id, sent id (network trace) = output id (network trace) ++
        (held t id ++ (t.net.conns id).queue ++ (t.net.conns id).inFlight)) ∧
      (machine.StepsMeet NoFailedRead (start listenFd) actions → Complete (network trace)) := by
  obtain ⟨-, flow⟩ := flow_of_run run
  exact ⟨fun id => flow.prefix id, fun id => (flow id).stream, complete_of_run run⟩

/-- One client sends two octets, which arrive and are read one at a time, and closes. -/
def twoOctets : List Action :=
  [.queueAccept 100, .submitAndWait, .net (.connect 7), .complete 0 (.accepted 4), .peek,
    .queueRead 101, .deleteRequest, .queueAccept 100, .peekNone, .submitAndWait,
    .net (.send 7 [104, 105]), .net (.deliver 7 1), .complete 0 (.received 1), .net (.deliver 7 1),
    .peek, .requeue, .peekNone, .submitAndWait, .complete 1 (.received 1), .peek, .requeue,
    .peekNone, .submitAndWait, .net (.finish 7), .net (.deliverFin 7), .complete 1 .ended, .peek]

theorem ring_server_writes_streams_two_octets :
    ∃ t trace, machine.Run (start 3) twoOctets t trace ∧
      (∀ id, sent id (network trace) = output id (network trace) ++
        (held t id ++ (t.net.conns id).queue ++ (t.net.conns id).inFlight)) ∧
      Complete (network trace) := by
  have run := machine.run_of_isSome (start 3) twoOctets (by decide)
  obtain ⟨-, hstream, hcomplete⟩ := ring_server_writes_streams run
  exact ⟨_, _, run, hstream, hcomplete (by decide)⟩

end CppCodes.Guarantees.RingServerOutput
