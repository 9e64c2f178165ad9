import CppCodes.Source.Net.Descriptors
import CppCodes.Source.Net.IoUringServer

/-!
# What the requests of the io_uring server are there for

Each request belongs to the listening socket or to one connection, and stands in one of
the states of `Duty`. The rules say what every call of the server and every completion
does to the requests, so that they stay accounted for.
-/

set_option autoImplicit false

namespace CppCodes.Source.Net.IoUringServer

open Library

variable {s t : Server} {p q : Ptr} {req : IoRequest} {seen : List Seen}

/-! ## What each request is there for -/

/-- The client has ended its stream and all of it has been read. -/
def Ended (c : Conn) : Prop := c.fin = true ∧ c.queue = []

/-- A connection that has been accepted and that no request reads from yet. -/
structure Handed (s : Server) (fd : Nat) : Prop where
  isOpen : s.net.fds fd ≠ none
  unread : ∀ p req, s.requests p = some req → req.type = .read → req.fd ≠ fd

/-- The request waits for the kernel, has an answer to take, or is in the hands of `main`. -/
inductive Duty (s : Server) (p : Ptr) : IoRequest → Prop where
  | accepting {buf : List UInt8} (waits : s.ring.Waits p (.accept s.listenFd)) :
      Duty s p ⟨.accept, s.listenFd, buf⟩
  | acceptDone {buf : List UInt8} {res : Int} (answered : s.ring.Answered p res)
      (handed : 0 ≤ res → Handed s res.toNat) : Duty s p ⟨.accept, s.listenFd, buf⟩
  | serving {buf : List UInt8} {fd : Nat} (idle : s.ring.Idle p) (phase : s.phase = .accepted p fd)
      (handed : Handed s fd) : Duty s p ⟨.accept, s.listenFd, buf⟩
  | rearming {buf : List UInt8} (idle : s.ring.Idle p) (phase : s.phase = .rearming p) :
      Duty s p ⟨.accept, s.listenFd, buf⟩
  | reading {buf : List UInt8} {fd id : Nat} (waits : s.ring.Waits p (.recv fd bufferSize))
      (isOpen : s.net.fds fd = some id) (size : buf.length = bufferSize) : Duty s p ⟨.read, fd, buf⟩
  | readDone {buf : List UInt8} {fd id : Nat} {res : Int} (answered : s.ring.Answered p res)
      (isOpen : s.net.fds fd = some id) (size : buf.length = bufferSize)
      (ended : res = 0 → Ended (s.net.conns id)) : Duty s p ⟨.read, fd, buf⟩
  | writing {buf : List UInt8} {fd id : Nat} (idle : s.ring.Idle p) (phase : s.phase = .received p)
      (isOpen : s.net.fds fd = some id) (size : buf.length = bufferSize) : Duty s p ⟨.read, fd, buf⟩

/-- The request that `main` is at. -/
def inHand : Phase → Option Ptr
  | .accepted p _ | .rearming p | .received p => some p
  | _ => none

/-- `main` is about to queue an `accept`. -/
def arms : Phase → Bool
  | .starting | .arming => true
  | _ => false

/-- The connection under `fd` is on its way from `accept` to its read request. -/
def HandedOver (s : Server) (fd : Nat) : Prop :=
  ∃ p buf, s.requests p = some ⟨.accept, s.listenFd, buf⟩ ∧
    (s.ring.Answered p fd ∨ s.phase = .accepted p fd)

structure Accounted (s : Server) : Prop where
  separate : s.net.Separate
  duty : ∀ p req, s.requests p = some req → Duty s p req
  idle : ∀ p, s.requests p = none → s.ring.Idle p
  single : ∀ p q req req', s.requests p = some req → s.requests q = some req' →
    req.type = req'.type → req.fd = req'.fd → p = q
  served : ∀ fd id, s.net.fds fd = some id →
    (∃ p buf, s.requests p = some ⟨.read, fd, buf⟩) ∨ HandedOver s fd
  hand : ∀ p, inHand s.phase = some p → s.requests p ≠ none ∧ s.ring.Idle p
  armed : if arms s.phase then ∀ p req, s.requests p = some req → req.type = .read
    else ∃ p buf, s.requests p = some ⟨.accept, s.listenFd, buf⟩

/-- What a step leaves alone of a request and of what it is about. -/
structure Keeps (s t : Server) (p : Ptr) (req : IoRequest) : Prop where
  listenFd : t.listenFd = s.listenFd
  ring : s.ring.Same t.ring p
  hand : inHand s.phase = some p → t.phase = s.phase
  conn : req.type = .read → ∀ id, s.net.fds req.fd = some id → t.net.fds req.fd = some id ∧
    (Ended (s.net.conns id) → Ended (t.net.conns id))
  handed : req.type = .accept → ∀ fd, Handed s fd → Handed t fd

theorem Duty.frame (h : Duty s p req) (keeps : Keeps s t p req) : Duty t p req := by
  obtain ⟨hlisten, hring, hhand, hconn, hhanded⟩ := keeps
  cases h with
  | accepting waits =>
    rw [← hlisten] at waits ⊢
    exact .accepting (waits.congr hring)
  | acceptDone answered handed =>
    rw [← hlisten]
    exact .acceptDone (answered.congr hring) fun hres => hhanded rfl _ (handed hres)
  | serving idle phase handed =>
    have hphase := hhand (by rw [phase]; rfl)
    rw [← hlisten]
    exact .serving (idle.congr hring) (hphase.trans phase) (hhanded rfl _ handed)
  | rearming idle phase =>
    have hphase := hhand (by rw [phase]; rfl)
    rw [← hlisten]
    exact .rearming (idle.congr hring) (hphase.trans phase)
  | reading waits isOpen size =>
    exact .reading (waits.congr hring) (hconn rfl _ isOpen).1 size
  | readDone answered isOpen size ended =>
    obtain ⟨hopen, hended⟩ := hconn rfl _ isOpen
    exact .readDone (answered.congr hring) hopen size fun hres => hended (ended hres)
  | writing idle phase isOpen size =>
    have hphase := hhand (by rw [phase]; rfl)
    exact .writing (idle.congr hring) (hphase.trans phase) (hconn rfl _ isOpen).1 size

theorem Handed.congr {fd : Nat} (h : Handed s fd) (hopen : t.net.fds fd ≠ none)
    (hreads : ∀ p req, t.requests p = some req → req.type = .read → req.fd ≠ fd ∨
      ∃ old, s.requests p = some old ∧ old.type = .read ∧ old.fd = req.fd) : Handed t fd := by
  refine ⟨hopen, ?_⟩
  intro p req hp htype
  rcases hreads p req hp htype with hne | ⟨old, hold, holdType, hsame⟩
  · exact hne
  · rw [← hsame]
    exact h.unread p old hold holdType

theorem getSqe_same {r : RequestRing Ptr Sqe Int} : r.Same (getSqe r) p := by
  unfold getSqe
  split
  · exact ⟨rfl, rfl⟩
  · exact RequestRing.submit_same

theorem prepare_same {r : RequestRing Ptr Sqe Int} {op : Sqe} (hne : p ≠ q) :
    r.Same ((getSqe r).prepare q op) p :=
  getSqe_same.trans (RequestRing.prepare_same hne)

theorem idle_prepare {r : RequestRing Ptr Sqe Int} {op : Sqe} (h : r.Idle p) :
    ((getSqe r).prepare p op).Waits p op :=
  (h.congr getSqe_same).prepare

theorem Accounted.acceptor_eq (h : Accounted s) {buf buf' : List UInt8}
    (hp : s.requests p = some ⟨.accept, s.listenFd, buf⟩)
    (hq : s.requests q = some ⟨.accept, s.listenFd, buf'⟩) : q = p :=
  h.single q p _ _ hq hp rfl rfl

theorem Accounted.accept_eq (h : Accounted s) (hp : s.requests p = some req)
    (htype : req.type = .accept) : ∃ buf, req = ⟨.accept, s.listenFd, buf⟩ := by
  have hduty := h.duty p req hp
  cases hduty with
  | accepting | acceptDone | serving | rearming => exact ⟨_, rfl⟩
  | reading | readDone | writing => cases htype

theorem Accounted.read_open (h : Accounted s) {fd : Nat} {buf : List UInt8}
    (hp : s.requests p = some ⟨.read, fd, buf⟩) :
    ∃ id, s.net.fds fd = some id ∧ buf.length = bufferSize := by
  have hduty := h.duty p _ hp
  cases hduty with
  | reading _ isOpen size | readDone _ isOpen size | writing _ _ isOpen size =>
    exact ⟨_, isOpen, size⟩

/-- The requests stay what they are, and so does what `main` does with them. -/
theorem Accounted.same_requests (h : Accounted s) (separate : t.net.Separate)
    (hrequests : t.requests = s.requests) (hlisten : t.listenFd = s.listenFd)
    (hring : ∀ p, s.ring.Same t.ring p) (hfds : t.net.fds = s.net.fds)
    (hended : ∀ id, Ended (s.net.conns id) → Ended (t.net.conns id))
    (hphase : t.phase = s.phase ∨
      inHand s.phase = none ∧ inHand t.phase = none ∧ arms t.phase = arms s.phase) :
    Accounted t := by
  have hhand : ∀ p, inHand s.phase = some p → t.phase = s.phase := by
    intro p hp
    rcases hphase with hsame | ⟨hnone, -, -⟩
    · exact hsame
    · rw [hnone] at hp
      cases hp
  constructor
  · exact separate
  · intro p req hp
    rw [hrequests] at hp
    refine (h.duty p req hp).frame ⟨hlisten, hring p, hhand p, ?_, ?_⟩
    · intro _ id hid
      rw [hfds]
      exact ⟨hid, hended id⟩
    · intro _ fd hfd
      refine hfd.congr (by rw [hfds]; exact hfd.isOpen) ?_
      intro q req' hq htype
      rw [hrequests] at hq
      exact Or.inr ⟨req', hq, htype, rfl⟩
  · intro p hp
    rw [hrequests] at hp
    exact (h.idle p hp).congr (hring p)
  · rw [hrequests]
    exact h.single
  · intro fd id hfd
    rw [hfds] at hfd
    rw [hrequests]
    refine (h.served fd id hfd).imp_right ?_
    rintro ⟨p, buf, hp, hgiven⟩
    refine ⟨p, buf, by rw [hrequests, hlisten]; exact hp, ?_⟩
    rcases hgiven with hanswered | hserving
    · exact Or.inl (hanswered.congr (hring p))
    · exact Or.inr ((hhand p (by rw [hserving]; rfl)).trans hserving)
  · intro p hp
    rw [hrequests]
    have hold : inHand s.phase = some p := by
      rcases hphase with hsame | ⟨-, hnone, -⟩
      · rwa [← hsame]
      · rw [hnone] at hp
        cases hp
    obtain ⟨hlive, hidle⟩ := h.hand p hold
    exact ⟨hlive, hidle.congr (hring p)⟩
  · have harms : arms t.phase = arms s.phase := by
      rcases hphase with hsame | ⟨-, -, hsame⟩
      · rw [hsame]
      · exact hsame
    rw [hrequests, hlisten, harms]
    exact h.armed

/-- Only the request at `p` changes, and the ring only for its operations. -/
structure Changes (s t : Server) (p : Ptr) (new : Option IoRequest) : Prop where
  requests : t.requests = Function.update s.requests p new
  listenFd : t.listenFd = s.listenFd
  ring : ∀ q, q ≠ p → s.ring.Same t.ring q

theorem Changes.self {new : Option IoRequest} (c : Changes s t p new) : t.requests p = new := by
  rw [c.requests, Function.update_self]

theorem Changes.other {new : Option IoRequest} (c : Changes s t p new) (hne : q ≠ p) :
    t.requests q = s.requests q := by
  rw [c.requests, Function.update_of_ne hne]

theorem Accounted.change {new : Option IoRequest} (h : Accounted s) (c : Changes s t p new)
    (separate : t.net.Separate)
    (others : ∀ q, q ≠ p → ∀ req, s.requests q = some req → Duty t q req)
    (own : ∀ req, new = some req → Duty t p req) (gone : new = none → t.ring.Idle p)
    (alone : ∀ req, new = some req → ∀ q req', q ≠ p → s.requests q = some req' →
      req.type = req'.type → req.fd ≠ req'.fd)
    (served : ∀ fd id, t.net.fds fd = some id →
      (∃ p buf, t.requests p = some ⟨.read, fd, buf⟩) ∨ HandedOver t fd)
    (hand : ∀ q, inHand t.phase = some q → t.requests q ≠ none ∧ t.ring.Idle q)
    (armed : if arms t.phase then ∀ p req, t.requests p = some req → req.type = .read
      else ∃ p buf, t.requests p = some ⟨.accept, t.listenFd, buf⟩) : Accounted t := by
  refine ⟨separate, ?_, ?_, ?_, served, hand, armed⟩
  · intro q req hq
    by_cases hne : q = p
    · subst hne
      exact own req (c.self.symm.trans hq)
    · exact others q hne req ((c.other hne).symm.trans hq)
  · intro q hq
    by_cases hne : q = p
    · subst hne
      exact gone (c.self.symm.trans hq)
    · exact (h.idle q ((c.other hne).symm.trans hq)).congr (c.ring q hne)
  · intro q q' req req' hq hq' htype hfd
    by_cases hne : q = p <;> by_cases hne' : q' = p
    · rw [hne, hne']
    · subst hne
      exact absurd hfd (alone req (c.self.symm.trans hq) q' req' hne'
        ((c.other hne').symm.trans hq') htype)
    · subst hne'
      exact absurd hfd.symm (alone req' (c.self.symm.trans hq') q req hne
        ((c.other hne).symm.trans hq) htype.symm)
    · exact h.single q q' req req' ((c.other hne).symm.trans hq) ((c.other hne').symm.trans hq')
        htype hfd

/-! ## Queueing -/

theorem inHand_of_arms {phase : Phase} (h : arms phase = true) : inHand phase = none := by
  cases phase <;> first | rfl | cases h

/-- An `accept` is queued where there is none. -/
theorem Accounted.queueAccept (h : Accounted s) (hq : s.requests q = none)
    (c : Changes s t q (some (.fresh .accept s.listenFd))) (hnet : t.net = s.net)
    (hring : t.ring.Waits q (.accept s.listenFd)) (hphase : arms s.phase = true)
    (hhand : inHand t.phase = none) (harms : arms t.phase = false) : Accounted t := by
  have hreads := h.armed
  rw [if_pos hphase] at hreads
  refine h.change c (hnet ▸ h.separate) ?_ ?_ nofun ?_ ?_ ?_ ?_
  · intro p hne req hp
    refine (h.duty p req hp).frame ⟨c.listenFd, c.ring p hne, ?_, ?_, ?_⟩
    · rw [inHand_of_arms hphase]
      exact nofun
    · intro _ id hid
      rw [hnet]
      exact ⟨hid, fun hended => hended⟩
    · intro htype
      rw [hreads p req hp] at htype
      cases htype
  · intro req hreq
    cases hreq
    rw [← c.listenFd] at hring ⊢
    exact .accepting hring
  · intro req hreq p req' _ hp htype
    cases hreq
    rw [hreads p req' hp] at htype
    cases htype
  · intro fd id hfd
    rw [hnet] at hfd
    rcases h.served fd id hfd with ⟨p, buf, hp⟩ | ⟨p, buf, hp, -⟩
    · have hne : p ≠ q := by
        rintro rfl
        rw [hq] at hp
        cases hp
      exact Or.inl ⟨p, buf, (c.other hne).trans hp⟩
    · cases hreads p _ hp
  · rw [hhand]
    exact nofun
  · rw [harms, c.listenFd]
    exact ⟨q, _, c.self⟩

/-! The three states of a request exclude each other. -/

theorem not_waits_of_idle {op : Sqe} (hidle : s.ring.Idle p) : ¬s.ring.Waits p op := by
  intro hwaits
  have hops := hwaits.ops
  rw [hidle.ops] at hops
  cases hops

theorem not_answered_of_idle {res : Int} (hidle : s.ring.Idle p) : ¬s.ring.Answered p res := by
  intro hanswered
  have hanswers := hanswered.answers
  rw [hidle.answers] at hanswers
  cases hanswers

theorem not_answered_of_waits {op : Sqe} {res : Int} (hwaits : s.ring.Waits p op) :
    ¬s.ring.Answered p res := by
  intro hanswered
  have hanswers := hanswered.answers
  rw [hwaits.answers] at hanswers
  cases hanswers

theorem Duty.ring_state (h : Duty s p req) :
    (∃ op, s.ring.Waits p op) ∨ (∃ res, s.ring.Answered p res) ∨ s.ring.Idle p := by
  cases h with
  | accepting waits | reading waits => exact Or.inl ⟨_, waits⟩
  | acceptDone answered | readDone answered => exact Or.inr (Or.inl ⟨_, answered⟩)
  | serving idle | rearming idle | writing idle => exact Or.inr (Or.inr idle)

/-- Who has an operation in flight is a live request that waits. -/
theorem Accounted.waits_of_inFlight (h : Accounted s) {i : Nat} {op : Sqe}
    (hi : s.ring.inFlight[i]? = some (p, op)) :
    ∃ req, s.requests p = some req ∧ s.ring.Waits p op := by
  cases hp : s.requests p with
  | none => exact absurd hi (h.idle p hp).not_inFlight
  | some req =>
    rcases (h.duty p req hp).ring_state with ⟨op', hwaits⟩ | ⟨res, hanswered⟩ | hidle
    · obtain ⟨rfl, -⟩ := hwaits.complete hi 0
      exact ⟨req, rfl, hwaits⟩
    · exact absurd hi hanswered.not_inFlight
    · exact absurd hi hidle.not_inFlight

/-- Whose completion is there is a live request with that answer. -/
theorem Accounted.answered_of_mem (h : Accounted s) {res : Int}
    (hin : (p, res) ∈ s.ring.completed) :
    ∃ req, s.requests p = some req ∧ s.ring.Answered p res := by
  have hres := RequestRing.mem_answers_of_mem hin
  cases hp : s.requests p with
  | none =>
    rw [(h.idle p hp).answers] at hres
    cases hres
  | some req =>
    refine ⟨req, rfl, ?_⟩
    rcases (h.duty p req hp).ring_state with ⟨op, hwaits⟩ | ⟨res', hanswered⟩ | hidle
    · rw [hwaits.answers] at hres
      cases hres
    · rw [hanswered.answers, List.mem_singleton] at hres
      exact hres ▸ hanswered
    · rw [hidle.answers] at hres
      cases hres

theorem Accounted.answered_of_completed (h : Accounted s) {res : Int} {rest : List (Ptr × Int)}
    (hc : s.ring.completed = (p, res) :: rest) :
    ∃ req, s.requests p = some req ∧ s.ring.Answered p res :=
  h.answered_of_mem (hc ▸ List.mem_cons_self)

theorem Duty.of_idle (h : Duty s p req) (idle : s.ring.Idle p) :
    (∃ buf fd, req = ⟨.accept, s.listenFd, buf⟩ ∧ s.phase = .accepted p fd ∧ Handed s fd) ∨
    (∃ buf, req = ⟨.accept, s.listenFd, buf⟩ ∧ s.phase = .rearming p) ∨
    (∃ buf fd id, req = ⟨.read, fd, buf⟩ ∧ s.phase = .received p ∧ s.net.fds fd = some id ∧
      buf.length = bufferSize) := by
  cases h with
  | accepting waits => exact absurd waits (not_waits_of_idle idle)
  | acceptDone answered => exact absurd answered (not_answered_of_idle idle)
  | serving _ phase handed => exact Or.inl ⟨_, _, rfl, phase, handed⟩
  | rearming _ phase => exact Or.inr (Or.inl ⟨_, rfl, phase⟩)
  | reading waits => exact absurd waits (not_waits_of_idle idle)
  | readDone answered => exact absurd answered (not_answered_of_idle idle)
  | writing _ phase isOpen size => exact Or.inr (Or.inr ⟨_, _, _, rfl, phase, isOpen, size⟩)

theorem Duty.of_waits {op : Sqe} (h : Duty s p req) (waits : s.ring.Waits p op) :
    (∃ buf, req = ⟨.accept, s.listenFd, buf⟩ ∧ op = .accept s.listenFd) ∨
    (∃ buf fd id, req = ⟨.read, fd, buf⟩ ∧ op = .recv fd bufferSize ∧ s.net.fds fd = some id ∧
      buf.length = bufferSize) := by
  have hop : ∀ op', s.ring.Waits p op' → op = op' := by
    intro op' waits'
    have hops := waits.ops
    rw [waits'.ops] at hops
    exact (List.cons.inj hops).1.symm
  cases h with
  | accepting waits' => exact Or.inl ⟨_, rfl, hop _ waits'⟩
  | acceptDone answered => exact absurd answered (not_answered_of_waits waits)
  | serving idle => exact absurd waits (not_waits_of_idle idle)
  | rearming idle => exact absurd waits (not_waits_of_idle idle)
  | reading waits' isOpen size => exact Or.inr ⟨_, _, _, rfl, hop _ waits', isOpen, size⟩
  | readDone answered => exact absurd answered (not_answered_of_waits waits)
  | writing idle => exact absurd waits (not_waits_of_idle idle)

theorem Duty.of_answered {res : Int} (h : Duty s p req) (answered : s.ring.Answered p res) :
    (∃ buf, req = ⟨.accept, s.listenFd, buf⟩ ∧ (0 ≤ res → Handed s res.toNat)) ∨
    (∃ buf fd id, req = ⟨.read, fd, buf⟩ ∧ s.net.fds fd = some id ∧ buf.length = bufferSize ∧
      (res = 0 → Ended (s.net.conns id))) := by
  have hres : ∀ res', s.ring.Answered p res' → res' = res := by
    intro res' answered'
    have hanswers := answered.answers
    rw [answered'.answers] at hanswers
    exact (List.cons.inj hanswers).1
  cases h with
  | accepting waits => exact absurd answered (not_answered_of_waits waits)
  | acceptDone answered' handed =>
    cases hres _ answered'
    exact Or.inl ⟨_, rfl, handed⟩
  | serving idle => exact absurd answered (not_answered_of_idle idle)
  | rearming idle => exact absurd answered (not_answered_of_idle idle)
  | reading waits => exact absurd answered (not_answered_of_waits waits)
  | readDone answered' isOpen size ended =>
    cases hres _ answered'
    exact Or.inr ⟨_, _, _, rfl, isOpen, size, ended⟩
  | writing idle => exact absurd answered (not_answered_of_idle idle)

/-- What the request in hand is there for, read off the phase. -/
theorem Accounted.in_hand (h : Accounted s) (hhand : inHand s.phase = some p) :
    ∃ req, s.requests p = some req ∧ s.ring.Idle p ∧ Duty s p req := by
  obtain ⟨hlive, hidle⟩ := h.hand p hhand
  obtain ⟨req, hp⟩ := Option.ne_none_iff_exists'.mp hlive
  exact ⟨req, hp, hidle, h.duty p req hp⟩

theorem Accounted.accepted_duty (h : Accounted s) {fd : Nat} (hphase : s.phase = .accepted p fd) :
    ∃ buf, s.requests p = some ⟨.accept, s.listenFd, buf⟩ ∧ s.ring.Idle p ∧ Handed s fd := by
  obtain ⟨req, hp, hidle, hduty⟩ := h.in_hand (p := p) (by rw [hphase]; rfl)
  rcases hduty.of_idle hidle with ⟨buf, fd', rfl, hsame, hhanded⟩ | ⟨buf, rfl, hsame⟩ |
    ⟨buf, fd', id, rfl, hsame, -⟩ <;> cases hphase.symm.trans hsame
  exact ⟨buf, hp, hidle, hhanded⟩

theorem Accounted.rearming_duty (h : Accounted s) (hphase : s.phase = .rearming p) :
    ∃ buf, s.requests p = some ⟨.accept, s.listenFd, buf⟩ ∧ s.ring.Idle p := by
  obtain ⟨req, hp, hidle, hduty⟩ := h.in_hand (p := p) (by rw [hphase]; rfl)
  rcases hduty.of_idle hidle with ⟨buf, fd', rfl, hsame, -⟩ | ⟨buf, rfl, hsame⟩ |
    ⟨buf, fd', id, rfl, hsame, -⟩ <;> cases hphase.symm.trans hsame
  exact ⟨buf, hp, hidle⟩

theorem Accounted.received_duty (h : Accounted s) (hphase : s.phase = .received p) :
    ∃ fd id buf, s.requests p = some ⟨.read, fd, buf⟩ ∧ s.ring.Idle p ∧
      s.net.fds fd = some id ∧ buf.length = bufferSize := by
  obtain ⟨req, hp, hidle, hduty⟩ := h.in_hand (p := p) (by rw [hphase]; rfl)
  rcases hduty.of_idle hidle with ⟨buf, fd', rfl, hsame, -⟩ | ⟨buf, rfl, hsame⟩ |
    ⟨buf, fd, id, rfl, hsame, hfd, hsize⟩ <;> cases hphase.symm.trans hsame
  exact ⟨fd, id, buf, hp, hidle, hfd, hsize⟩

/-- The new connection gets a read request of its own. -/
theorem Accounted.queueRead (h : Accounted s) {fd : Nat} (hphase : s.phase = .accepted p fd)
    (hq : s.requests q = none) (c : Changes s t q (some (.fresh .read fd))) (hnet : t.net = s.net)
    (hring : t.ring.Waits q (.recv fd bufferSize)) (hnext : t.phase = .rearming p) :
    Accounted t := by
  obtain ⟨buf, hp, hidle, hhanded⟩ := h.accepted_duty hphase
  have hpq : p ≠ q := by
    rintro rfl
    rw [hq] at hp
    cases hp
  obtain ⟨id, hfd⟩ := Option.ne_none_iff_exists'.mp hhanded.isOpen
  have hp' := (c.other hpq).trans hp
  have hidle' := hidle.congr (c.ring p hpq)
  refine h.change c (hnet ▸ h.separate) ?_ ?_ nofun ?_ ?_ ?_ ?_
  · intro p' hne req hp''
    by_cases hsame : p' = p
    · subst hsame
      cases hp.symm.trans hp''
      rw [← c.listenFd]
      exact .rearming hidle' hnext
    · refine (h.duty p' req hp'').frame ⟨c.listenFd, c.ring p' hne, ?_, ?_, ?_⟩
      · rw [hphase]
        rintro ⟨⟩
        exact absurd rfl hsame
      · intro _ id' hid
        rw [hnet]
        exact ⟨hid, fun hended => hended⟩
      · intro htype
        obtain ⟨buf', rfl⟩ := h.accept_eq hp'' htype
        exact absurd (h.acceptor_eq hp hp'') hsame
  · intro req hreq
    cases hreq
    exact .reading hring (hnet ▸ hfd) List.length_replicate
  · intro req hreq p' req' _ hp'' htype hsame
    cases hreq
    exact hhanded.unread p' req' hp'' htype.symm hsame.symm
  · intro fd' id' hfd'
    rw [hnet] at hfd'
    rcases h.served fd' id' hfd' with ⟨p', buf', hp''⟩ | ⟨p', buf', hp'', hgiven⟩
    · have hne : p' ≠ q := by
        rintro rfl
        rw [hq] at hp''
        cases hp''
      exact Or.inl ⟨p', buf', (c.other hne).trans hp''⟩
    · obtain rfl := h.acceptor_eq hp hp''
      rcases hgiven with hanswered | hserving
      · exact absurd hanswered (not_answered_of_idle hidle)
      · cases hphase.symm.trans hserving
        exact Or.inl ⟨q, _, c.self⟩
  · rw [hnext]
    rintro p' ⟨⟩
    exact ⟨by rw [hp']; exact nofun, hidle'⟩
  · rw [hnext]
    exact ⟨p, buf, by rw [c.listenFd]; exact hp'⟩

/-- The request of an `accept` is deleted once it is in hand. -/
theorem Accounted.deleteRequest (h : Accounted s) (hphase : s.phase = .rearming p)
    (c : Changes s t p none) (hnet : t.net = s.net) (hring : t.ring = s.ring)
    (hnext : t.phase = .arming) : Accounted t := by
  obtain ⟨buf, hp, hidle⟩ := h.rearming_duty hphase
  refine h.change c (hnet ▸ h.separate) ?_ nofun (fun _ => hring ▸ hidle) nofun ?_ ?_ ?_
  · intro q hne req hq
    refine (h.duty q req hq).frame ⟨c.listenFd, c.ring q hne, ?_, ?_, ?_⟩
    · rw [hphase]
      rintro ⟨⟩
      exact absurd rfl hne
    · intro _ id hid
      rw [hnet]
      exact ⟨hid, fun hended => hended⟩
    · intro htype
      obtain ⟨buf', rfl⟩ := h.accept_eq hq htype
      exact absurd (h.acceptor_eq hp hq) hne
  · intro fd id hfd
    rw [hnet] at hfd
    rcases h.served fd id hfd with ⟨q, buf', hq⟩ | ⟨q, buf', hq, hgiven⟩
    · have hne : q ≠ p := by
        rintro rfl
        cases hp.symm.trans hq
      exact Or.inl ⟨q, buf', (c.other hne).trans hq⟩
    · obtain rfl := h.acceptor_eq hp hq
      rcases hgiven with hanswered | hserving
      · exact absurd hanswered (not_answered_of_idle hidle)
      · cases hphase.symm.trans hserving
  · rw [hnext]
    exact nofun
  · rw [hnext]
    intro q req hq
    have hne : q ≠ p := by
      rintro rfl
      cases c.self.symm.trans hq
    by_contra htype
    rw [c.other hne] at hq
    obtain ⟨buf', rfl⟩ := h.accept_eq hq (by cases hreq : req.type <;> first | rfl | exact absurd hreq htype)
    exact hne (h.acceptor_eq hp hq)

/-- The request of a read goes back to the ring once its octets are written. -/
theorem Accounted.requeue (h : Accounted s) {fd : Nat} {buf : List UInt8}
    (hphase : s.phase = .received p) (hp : s.requests p = some ⟨.read, fd, buf⟩)
    (c : Changes s t p (some ⟨.read, fd, buf⟩)) (hnet : t.net = s.net)
    (hring : t.ring.Waits p (.recv fd bufferSize)) (hnext : t.phase = .draining) :
    Accounted t := by
  obtain ⟨fd', id, buf', hp', hidle, hfd, hsize⟩ := h.received_duty hphase
  cases hp.symm.trans hp'
  have hacceptor : ∀ q buf, s.requests q = some ⟨.accept, s.listenFd, buf⟩ → q ≠ p := by
    rintro q buf hq rfl
    cases hp.symm.trans hq
  refine h.change c (hnet ▸ h.separate) ?_ ?_ nofun ?_ ?_ ?_ ?_
  · intro q hne req hq
    refine (h.duty q req hq).frame ⟨c.listenFd, c.ring q hne, ?_, ?_, ?_⟩
    · rw [hphase]
      rintro ⟨⟩
      exact absurd rfl hne
    · intro _ id' hid
      rw [hnet]
      exact ⟨hid, fun hended => hended⟩
    · intro _ fd' hhanded
      refine hhanded.congr (by rw [hnet]; exact hhanded.isOpen) ?_
      intro q' req' hq' htype
      by_cases hsame : q' = p
      · subst hsame
        cases c.self.symm.trans hq'
        exact Or.inr ⟨_, hp, rfl, rfl⟩
      · exact Or.inr ⟨req', (c.other hsame).symm.trans hq', htype, rfl⟩
  · intro req hreq
    cases hreq
    exact .reading hring (hnet ▸ hfd) hsize
  · intro req hreq q req' hne hq htype hsame
    cases hreq
    exact hne (h.single q p req' _ hq hp htype.symm hsame.symm)
  · intro fd' id' hfd'
    rw [hnet] at hfd'
    rcases h.served fd' id' hfd' with ⟨q, buf', hq⟩ | ⟨q, buf', hq, hgiven⟩
    · by_cases hsame : q = p
      · subst hsame
        cases hp.symm.trans hq
        exact Or.inl ⟨q, _, c.self⟩
      · exact Or.inl ⟨q, buf', (c.other hsame).trans hq⟩
    · have hne := hacceptor q buf' hq
      refine Or.inr ⟨q, buf', by rw [c.listenFd]; exact (c.other hne).trans hq, ?_⟩
      rcases hgiven with hanswered | hserving
      · exact Or.inl (hanswered.congr (c.ring q hne))
      · cases hphase.symm.trans hserving
  · rw [hnext]
    exact nofun
  · have harmed := h.armed
    rw [hphase] at harmed
    obtain ⟨q, buf', hq⟩ := harmed
    rw [hnext]
    exact ⟨q, buf', by rw [c.listenFd]; exact (c.other (hacceptor q buf' hq)).trans hq⟩

/-! ## Completions -/

/-- What the kernel makes of an `accept`. -/
theorem perform_accept {fd : Nat} {outcome : Outcome} {net : Sockets} {req' : IoRequest} {res : Int}
    (hperform : perform s p req (.accept fd) outcome = some (net, req', res, seen)) :
    req' = req ∧ ((∃ newFd : Nat, s.net.accept newFd = some net ∧ res = newFd ∧
      seen = [.memory (.written p addrOffset addrSize)]) ∨ net = s.net ∧ res < 0 ∧ seen = []) := by
  cases outcome with
  | accepted newFd =>
    simp only [perform] at hperform
    split at hperform
    · cases hperform
    · obtain ⟨net', haccept, heq⟩ := Option.map_eq_some_iff.mp hperform
      cases heq
      exact ⟨rfl, Or.inl ⟨newFd, haccept, rfl, rfl⟩⟩
  | received n => cases hperform
  | ended => cases hperform
  | failed errno =>
    cases hperform
    exact ⟨rfl, Or.inr ⟨rfl, by omega, rfl⟩⟩

/-- What the kernel makes of a read: octets are moved to the buffer, the stream has ended,
or it failed. -/
theorem perform_recv {fd id : Nat} {outcome : Outcome} {net : Sockets} {req' : IoRequest} {res : Int}
    (hfd : s.net.fds fd = some id) (hsize : req.buffer.length = bufferSize)
    (hperform : perform s p req (.recv fd bufferSize) outcome = some (net, req', res, seen)) :
    req'.type = req.type ∧ req'.fd = req.fd ∧ req'.buffer.length = bufferSize ∧
    ((∃ data rest, (s.net.conns id).queue = data ++ rest ∧ data ≠ [] ∧ data.length ≤ bufferSize ∧
        net = s.net.set id { s.net.conns id with queue := rest } ∧
        req'.buffer.take data.length = data ∧ res = data.length ∧
        seen = [.memory (.written p bufferOffset data.length)]) ∨
      net = s.net ∧ req' = req ∧ seen = [] ∧
        (res = 0 ∧ Ended (s.net.conns id) ∨ res < 0 ∧ ∃ errno, outcome = .failed errno)) := by
  cases outcome with
  | accepted newFd => cases hperform
  | received n =>
    simp only [perform, hfd] at hperform
    split at hperform
    · rename_i hn
      obtain ⟨hqueue, hpos, hle⟩ := hn
      cases hperform
      have hdata : ((s.net.conns id).queue.take n).length ≤ bufferSize := by
        rw [List.length_take]
        omega
      refine ⟨rfl, rfl, ?_, Or.inl ⟨(s.net.conns id).queue.take n, (s.net.conns id).queue.drop n,
        (List.take_append_drop ..).symm, ?_, hdata, rfl, List.take_left, rfl, rfl⟩⟩
      · rw [List.length_append, List.length_drop, hsize]
        omega
      · rw [Ne, List.take_eq_nil_iff]
        rintro (hzero | hnil)
        · omega
        · exact hqueue hnil
    · cases hperform
  | ended =>
    simp only [perform, hfd] at hperform
    split at hperform
    · rename_i hend
      cases hperform
      exact ⟨rfl, rfl, hsize, Or.inr ⟨rfl, rfl, rfl, Or.inl ⟨rfl, hend.2, hend.1⟩⟩⟩
    · cases hperform
  | failed errno =>
    cases hperform
    exact ⟨rfl, rfl, hsize, Or.inr ⟨rfl, rfl, rfl, Or.inr ⟨by omega, errno, rfl⟩⟩⟩

theorem Accounted.completeAccept (h : Accounted s) {buf : List UInt8} {res : Int}
    (hp : s.requests p = some ⟨.accept, s.listenFd, buf⟩)
    (hwaits : s.ring.Waits p (.accept s.listenFd))
    (c : Changes s t p (some ⟨.accept, s.listenFd, buf⟩)) (hring : t.ring.Answered p res)
    (hphase : t.phase = s.phase)
    (hnet : (∃ fd : Nat, s.net.accept fd = some t.net ∧ res = fd) ∨ t.net = s.net ∧ res < 0) :
    Accounted t := by
  have hrequests : t.requests = s.requests := by
    rw [c.requests, ← hp, Function.update_eq_self]
  have hseparate : t.net.Separate := by
    rcases hnet with ⟨fd, haccept, -⟩ | ⟨hsame, -⟩
    · exact (h.separate.accept haccept).1
    · rw [hsame]
      exact h.separate
  have hkept : t.net.conns = s.net.conns ∧
      ∀ fd, s.net.fds fd ≠ none → t.net.fds fd = s.net.fds fd := by
    rcases hnet with ⟨newFd, haccept, -⟩ | ⟨hsame, -⟩
    · obtain ⟨hfree, hconns, hothers⟩ := Sockets.accept_spec haccept
      refine ⟨hconns, fun fd hopen => hothers fd ?_⟩
      rintro rfl
      exact hopen hfree
    · rw [hsame]
      exact ⟨rfl, fun _ _ => rfl⟩
  have hhanded : 0 ≤ res → Handed t res.toNat := by
    intro hres
    rcases hnet with ⟨fd, haccept, rfl⟩ | ⟨-, hneg⟩
    · obtain ⟨hfree, -, -⟩ := Sockets.accept_spec haccept
      obtain ⟨-, id, hopen⟩ := h.separate.accept haccept
      refine ⟨by rw [Int.toNat_natCast, hopen]; exact nofun, ?_⟩
      rintro q ⟨type, fd', buf'⟩ hq rfl hsame
      rw [hrequests] at hq
      cases hsame
      obtain ⟨id', hread, -⟩ := h.read_open hq
      rw [hfree] at hread
      cases hread
    · omega
  have hidle : inHand s.phase ≠ some p := by
    intro hin
    exact not_waits_of_idle (h.hand p hin).2 hwaits
  refine h.change c hseparate ?_ ?_ nofun ?_ ?_ ?_ ?_
  · intro q hne req hq
    refine (h.duty q req hq).frame ⟨c.listenFd, c.ring q hne, fun _ => hphase, ?_, ?_⟩
    · intro _ id hid
      rw [hkept.1, hkept.2 _ (by rw [hid]; exact nofun)]
      exact ⟨hid, fun hended => hended⟩
    · intro htype
      obtain ⟨buf', rfl⟩ := h.accept_eq hq htype
      exact absurd (h.acceptor_eq hp hq) hne
  · intro req hreq
    cases hreq
    rw [← c.listenFd]
    exact .acceptDone hring hhanded
  · intro req hreq q req' hne hq htype hfd
    cases hreq
    exact hne (h.single q p req' _ hq hp htype.symm hfd.symm)
  · intro fd id hfd
    have hgiven : (∃ p buf, s.requests p = some ⟨.read, fd, buf⟩) ∨
        s.net.fds fd = none ∧ (fd : Int) = res := by
      by_cases hopen : s.net.fds fd = none
      · rcases hnet with ⟨newFd, haccept, rfl⟩ | ⟨hsame, -⟩
        · by_cases hsame : fd = newFd
          · exact Or.inr ⟨hopen, by rw [hsame]⟩
          · rw [(Sockets.accept_spec haccept).2.2 fd hsame, hopen] at hfd
            cases hfd
        · rw [hsame, hopen] at hfd
          cases hfd
      · obtain ⟨id', hold⟩ := Option.ne_none_iff_exists'.mp hopen
        rcases h.served fd id' hold with hread | ⟨q, buf', hq, hgiven⟩
        · exact Or.inl hread
        · obtain rfl := h.acceptor_eq hp hq
          rcases hgiven with hanswered | hserving
          · exact absurd hanswered (not_answered_of_waits hwaits)
          · exact absurd (by rw [hserving]; rfl) hidle
    rw [hrequests]
    rcases hgiven with hread | ⟨-, rfl⟩
    · exact Or.inl hread
    · exact Or.inr ⟨p, buf, by rw [hrequests, c.listenFd]; exact hp, Or.inl hring⟩
  · rw [hphase, hrequests]
    intro q hq
    have hne : q ≠ p := by
      rintro rfl
      exact hidle hq
    obtain ⟨hlive, hqidle⟩ := h.hand q hq
    exact ⟨hlive, hqidle.congr (c.ring q hne)⟩
  · rw [hphase, hrequests, c.listenFd]
    exact h.armed

theorem Accounted.completeRead (h : Accounted s) {fd id : Nat} {buf buf' : List UInt8} {res : Int}
    (hp : s.requests p = some ⟨.read, fd, buf⟩) (hfd : s.net.fds fd = some id)
    (hwaits : s.ring.Waits p (.recv fd bufferSize)) (c : Changes s t p (some ⟨.read, fd, buf'⟩))
    (hsize : buf'.length = bufferSize) (hring : t.ring.Answered p res) (hphase : t.phase = s.phase)
    (hseparate : t.net.Separate) (hfds : t.net.fds = s.net.fds)
    (hconns : ∀ id', id' ≠ id → t.net.conns id' = s.net.conns id')
    (hended : res = 0 → Ended (t.net.conns id)) : Accounted t := by
  have hacceptor : ∀ q buf, s.requests q = some ⟨.accept, s.listenFd, buf⟩ → q ≠ p := by
    rintro q buf hq rfl
    cases hp.symm.trans hq
  have hidle : inHand s.phase ≠ some p := by
    intro hin
    exact not_waits_of_idle (h.hand p hin).2 hwaits
  have hreads : ∀ q req, t.requests q = some req → ∃ old, s.requests q = some old ∧
      old.type = req.type ∧ old.fd = req.fd := by
    intro q req hq
    by_cases hsame : q = p
    · subst hsame
      cases c.self.symm.trans hq
      exact ⟨_, hp, rfl, rfl⟩
    · exact ⟨req, (c.other hsame).symm.trans hq, rfl, rfl⟩
  refine h.change c hseparate ?_ ?_ nofun ?_ ?_ ?_ ?_
  · intro q hne req hq
    refine (h.duty q req hq).frame ⟨c.listenFd, c.ring q hne, fun _ => hphase, ?_, ?_⟩
    · intro htype id' hid
      rw [hfds]
      refine ⟨hid, ?_⟩
      rw [hconns id']
      · exact fun hended => hended
      · rintro rfl
        exact hne (h.single q p req _ hq hp htype (h.separate.single _ _ id' hid hfd))
    · intro _ fd' hhanded
      refine hhanded.congr (by rw [hfds]; exact hhanded.isOpen) ?_
      intro q' req' hq' htype
      obtain ⟨old, hold, holdType, holdFd⟩ := hreads q' req' hq'
      exact Or.inr ⟨old, hold, holdType.trans htype, holdFd⟩
  · intro req hreq
    cases hreq
    exact .readDone hring (hfds ▸ hfd) hsize hended
  · intro req hreq q req' hne hq htype hsame
    cases hreq
    exact hne (h.single q p req' _ hq hp htype.symm hsame.symm)
  · intro fd' id' hfd'
    rw [hfds] at hfd'
    rcases h.served fd' id' hfd' with ⟨q, buf'', hq⟩ | ⟨q, buf'', hq, hgiven⟩
    · by_cases hsame : q = p
      · subst hsame
        cases hp.symm.trans hq
        exact Or.inl ⟨q, _, c.self⟩
      · exact Or.inl ⟨q, buf'', (c.other hsame).trans hq⟩
    · have hne := hacceptor q buf'' hq
      refine Or.inr ⟨q, buf'', by rw [c.listenFd]; exact (c.other hne).trans hq, ?_⟩
      exact hgiven.imp (fun hanswered => hanswered.congr (c.ring q hne)) hphase.trans
  · rw [hphase]
    intro q hq
    have hne : q ≠ p := by
      rintro rfl
      exact hidle hq
    obtain ⟨hlive, hqidle⟩ := h.hand q hq
    rw [c.other hne]
    exact ⟨hlive, hqidle.congr (c.ring q hne)⟩
  · have harmed := h.armed
    rw [hphase, c.listenFd]
    split at harmed
    · rename_i harms
      rw [if_pos harms]
      intro q req hq
      obtain ⟨old, hold, holdType, -⟩ := hreads q req hq
      exact holdType ▸ harmed q old hold
    · rename_i harms
      rw [if_neg harms]
      obtain ⟨q, buf'', hq⟩ := harmed
      exact ⟨q, buf'', (c.other (hacceptor q buf'' hq)).trans hq⟩

/-! ## Taking a completion -/

/-- The completion of an `accept` puts its request into the hands of `main`. -/
theorem Accounted.takeAccept (h : Accounted s) {buf : List UInt8} {res : Int}
    (hp : s.requests p = some ⟨.accept, s.listenFd, buf⟩) (hanswered : s.ring.Answered p res)
    (hdraining : s.phase = .draining) (c : Changes s t p (some ⟨.accept, s.listenFd, buf⟩))
    (hnet : t.net = s.net) (hring : t.ring.Idle p)
    (hphase : t.phase = if 0 ≤ res then .accepted p res.toNat else .rearming p) : Accounted t := by
  have hrequests : t.requests = s.requests := by
    rw [c.requests, ← hp, Function.update_eq_self]
  have hhand : inHand t.phase = some p ∧ arms t.phase = false := by
    rw [hphase]
    split <;> exact ⟨rfl, rfl⟩
  refine h.change c (hnet ▸ h.separate) ?_ ?_ nofun ?_ ?_ ?_ ?_
  · intro q hne req hq
    refine (h.duty q req hq).frame ⟨c.listenFd, c.ring q hne, ?_, ?_, ?_⟩
    · rw [hdraining]
      exact nofun
    · intro _ id hid
      rw [hnet]
      exact ⟨hid, fun hended => hended⟩
    · intro htype
      obtain ⟨buf', rfl⟩ := h.accept_eq hq htype
      exact absurd (h.acceptor_eq hp hq) hne
  · intro req hreq
    cases hreq
    rw [← c.listenFd]
    by_cases hres : 0 ≤ res
    · rw [if_pos hres] at hphase
      rcases (h.duty p _ hp).of_answered hanswered with ⟨_, -, hhanded⟩ | ⟨_, _, _, hreq, -⟩
      · have hold := hhanded hres
        exact .serving hring hphase (hold.congr (by rw [hnet]; exact hold.isOpen)
          fun q req hq htype => Or.inr ⟨req, hrequests ▸ hq, htype, rfl⟩)
      · cases hreq
    · rw [if_neg hres] at hphase
      exact .rearming hring hphase
  · intro req hreq q req' hne hq htype hfd
    cases hreq
    exact hne (h.single q p req' _ hq hp htype.symm hfd.symm)
  · intro fd id hfd
    rw [hnet] at hfd
    rw [hrequests]
    rcases h.served fd id hfd with hread | ⟨q, buf', hq, hgiven⟩
    · exact Or.inl hread
    · obtain rfl := h.acceptor_eq hp hq
      rcases hgiven with hanswered' | hserving
      · have hsame : (fd : Int) = res := by
          have hanswers := hanswered.answers
          rw [hanswered'.answers] at hanswers
          exact (List.cons.inj hanswers).1
        subst hsame
        rw [if_pos (Int.natCast_nonneg fd), Int.toNat_natCast] at hphase
        exact Or.inr ⟨q, buf', by rw [hrequests, c.listenFd]; exact hq, Or.inr hphase⟩
      · cases hdraining.symm.trans hserving
  · rw [hhand.1]
    rintro q ⟨⟩
    exact ⟨by rw [c.self]; exact nofun, hring⟩
  · rw [hhand.2, c.listenFd]
    exact ⟨p, buf, c.self⟩

/-- Octets have been read: the request is in the hands of `main` until the next read. -/
theorem Accounted.takeOctets (h : Accounted s) {fd id : Nat} {buf : List UInt8}
    (hp : s.requests p = some ⟨.read, fd, buf⟩) (hfd : s.net.fds fd = some id)
    (hsize : buf.length = bufferSize) (hdraining : s.phase = .draining)
    (c : Changes s t p (some ⟨.read, fd, buf⟩)) (hnet : t.net = s.net) (hring : t.ring.Idle p)
    (hphase : t.phase = .received p) : Accounted t := by
  have hrequests : t.requests = s.requests := by
    rw [c.requests, ← hp, Function.update_eq_self]
  have hacceptor : ∀ q buf, s.requests q = some ⟨.accept, s.listenFd, buf⟩ → q ≠ p := by
    rintro q buf hq rfl
    cases hp.symm.trans hq
  refine h.change c (hnet ▸ h.separate) ?_ ?_ nofun ?_ ?_ ?_ ?_
  · intro q hne req hq
    refine (h.duty q req hq).frame ⟨c.listenFd, c.ring q hne, ?_, ?_, ?_⟩
    · rw [hdraining]
      exact nofun
    · intro _ id' hid
      rw [hnet]
      exact ⟨hid, fun hended => hended⟩
    · intro _ fd' hhanded
      exact hhanded.congr (by rw [hnet]; exact hhanded.isOpen)
        fun q req hq htype => Or.inr ⟨req, hrequests ▸ hq, htype, rfl⟩
  · intro req hreq
    cases hreq
    exact .writing hring hphase (hnet ▸ hfd) hsize
  · intro req hreq q req' hne hq htype hsame
    cases hreq
    exact hne (h.single q p req' _ hq hp htype.symm hsame.symm)
  · intro fd' id' hfd'
    rw [hnet] at hfd'
    rw [hrequests]
    rcases h.served fd' id' hfd' with hread | ⟨q, buf', hq, hgiven⟩
    · exact Or.inl hread
    · refine Or.inr ⟨q, buf', by rw [hrequests, c.listenFd]; exact hq, ?_⟩
      rcases hgiven with hanswered | hserving
      · exact Or.inl (hanswered.congr (c.ring q (hacceptor q buf' hq)))
      · cases hdraining.symm.trans hserving
  · rw [hphase]
    rintro q ⟨⟩
    exact ⟨by rw [c.self]; exact nofun, hring⟩
  · have harmed := h.armed
    rw [hdraining] at harmed
    rw [hphase, hrequests, c.listenFd]
    exact harmed

/-- A read that brings nothing: the descriptor is closed and the request freed. -/
theorem Accounted.takeEnd (h : Accounted s) {fd id : Nat} {buf : List UInt8}
    (hp : s.requests p = some ⟨.read, fd, buf⟩) (hfd : s.net.fds fd = some id)
    (hdraining : s.phase = .draining) (c : Changes s t p none)
    (hnet : t.net = (s.net.close fd).1) (hring : t.ring.Idle p) (hphase : t.phase = .draining) :
    Accounted t := by
  obtain ⟨hconns, hclosed, hothers, -⟩ := Sockets.close_spec hfd
  rw [← hnet] at hconns hclosed hothers
  have hacceptor : ∀ q buf, s.requests q = some ⟨.accept, s.listenFd, buf⟩ → q ≠ p := by
    rintro q buf hq rfl
    cases hp.symm.trans hq
  refine h.change c (hnet ▸ h.separate.close hfd) ?_ nofun (fun _ => hring) nofun ?_ ?_ ?_
  · intro q hne req hq
    refine (h.duty q req hq).frame ⟨c.listenFd, c.ring q hne, ?_, ?_, ?_⟩
    · rw [hdraining]
      exact nofun
    · intro htype id' hid
      rw [hconns, hothers _ fun hsame => hne (h.single q p req _ hq hp htype hsame)]
      exact ⟨hid, fun hended => hended⟩
    · intro _ fd' hhanded
      have hne' : fd' ≠ fd := (hhanded.unread p _ hp rfl).symm
      refine hhanded.congr (by rw [hothers fd' hne']; exact hhanded.isOpen) ?_
      intro q' req' hq' htype
      have hsame : q' ≠ p := by
        rintro rfl
        cases c.self.symm.trans hq'
      exact Or.inr ⟨req', (c.other hsame).symm.trans hq', htype, rfl⟩
  · intro fd' id' hfd'
    have hne' : fd' ≠ fd := by
      rintro rfl
      rw [hclosed] at hfd'
      cases hfd'
    rw [hothers fd' hne'] at hfd'
    rcases h.served fd' id' hfd' with ⟨q, buf', hq⟩ | ⟨q, buf', hq, hgiven⟩
    · have hne : q ≠ p := by
        rintro rfl
        cases hp.symm.trans hq
        exact hne' rfl
      exact Or.inl ⟨q, buf', (c.other hne).trans hq⟩
    · have hne := hacceptor q buf' hq
      refine Or.inr ⟨q, buf', by rw [c.listenFd]; exact (c.other hne).trans hq, ?_⟩
      rcases hgiven with hanswered | hserving
      · exact Or.inl (hanswered.congr (c.ring q hne))
      · cases hdraining.symm.trans hserving
  · rw [hphase]
    exact nofun
  · have harmed := h.armed
    rw [hdraining] at harmed
    obtain ⟨q, buf', hq⟩ := harmed
    rw [hphase]
    exact ⟨q, buf', by rw [c.listenFd]; exact (c.other (hacceptor q buf' hq)).trans hq⟩

end CppCodes.Source.Net.IoUringServer
