import CppCodes.Source.Net.Streams

/-!
# Descriptors and the connections they stand for

A connection waits in the backlog or has been accepted under one descriptor, and is
never accepted again. A server that keeps octets it has read in buffers of its own is
seen as one that has not read them.
-/

set_option autoImplicit false

namespace CppCodes.Source.Net.Sockets

structure Separate (s : Sockets) : Prop where
  waiting : s.backlog.Nodup
  known : ∀ id ∈ s.backlog, id ∈ s.connected
  accepted : ∀ fd id, s.fds fd = some id → id ∈ s.connected ∧ id ∉ s.backlog
  single : ∀ fd fd' id, s.fds fd = some id → s.fds fd' = some id → fd = fd'

/-- The end of a stream arrives last. -/
def Settled (s : Sockets) : Prop :=
  ∀ id, (s.conns id).fin = true → (s.conns id).inFlight = [] ∧ (s.conns id).finished = true

variable {s t : Sockets} {seen : List Event}

theorem settled_empty : empty.Settled := nofun

theorem Settled.set (h : s.Settled) {id : Nat} {c : Conn}
    (hc : c.fin = true → c.inFlight = [] ∧ c.finished = true) : (s.set id c).Settled := by
  intro id' hfin
  by_cases hsame : id' = id
  · subst hsame
    rw [show (s.set id' c).conns id' = c from Function.update_self ..] at hfin ⊢
    exact hc hfin
  · rw [show (s.set id c).conns id' = s.conns id' from Function.update_of_ne hsame ..] at hfin ⊢
    exact h id' hfin

/-- A stream whose end has arrived stays as it is. -/
def Lasts (s t : Sockets) : Prop :=
  ∀ id, (s.conns id).fin = true →
    (t.conns id).fin = true ∧ (t.conns id).queue = (s.conns id).queue

theorem lasts_set {id : Nat} {c : Conn}
    (hc : (s.conns id).fin = true → c.fin = true ∧ c.queue = (s.conns id).queue) :
    s.Lasts (s.set id c) := by
  intro id' hfin
  by_cases hsame : id' = id
  · subst hsame
    rw [show (s.set id' c).conns id' = c from Function.update_self ..]
    exact hc hfin
  · rw [show (s.set id c).conns id' = s.conns id' from Function.update_of_ne hsame ..]
    exact ⟨hfin, rfl⟩

theorem Settled.act (h : s.Settled) {a : NetAction} (ha : s.act a = some (t, seen)) :
    t.Settled ∧ s.Lasts t := by
  cases a with
  | connect id =>
    simp only [Sockets.act] at ha
    split at ha
    · cases ha
    · cases ha
      exact ⟨h, fun id hfin => ⟨hfin, rfl⟩⟩
  | send id data =>
    simp only [Sockets.act] at ha
    split at ha
    · rename_i hopen
      cases ha
      refine ⟨h.set fun hfin => ?_, lasts_set fun hfin => ⟨hfin, rfl⟩⟩
      rw [(h id hfin).2] at hopen
      cases hopen.2
    · cases ha
  | finish id =>
    simp only [Sockets.act] at ha
    split at ha
    · cases ha
      exact ⟨h.set fun hfin => ⟨(h id hfin).1, rfl⟩, lasts_set fun hfin => ⟨hfin, rfl⟩⟩
    · cases ha
  | deliver id n =>
    cases ha
    refine ⟨h.set fun hfin => ?_, lasts_set fun hfin => ⟨hfin, ?_⟩⟩
    · obtain ⟨hnone, hfinished⟩ := h id hfin
      exact ⟨by simp [hnone], hfinished⟩
    · simp [(h id hfin).1]
  | deliverFin id =>
    simp only [Sockets.act] at ha
    split at ha
    · rename_i hlast
      cases ha
      exact ⟨h.set fun _ => ⟨hlast.2, hlast.1⟩, lasts_set fun _ => ⟨rfl, rfl⟩⟩
    · cases ha

theorem act_defined {a : NetAction} (ha : s.act a = some (t, seen)) :
    Event.undefined ∉ seen ∧ t.fds = s.fds := by
  cases a <;> simp only [Sockets.act] at ha <;> (try split at ha) <;> cases ha <;>
    exact ⟨by simp, rfl⟩

theorem separate_empty : empty.Separate := ⟨List.nodup_nil, nofun, nofun, nofun⟩

theorem Separate.congr (h : s.Separate) (hbacklog : t.backlog = s.backlog)
    (hconnected : t.connected = s.connected) (hfds : t.fds = s.fds) : t.Separate := by
  constructor
  · rw [hbacklog]
    exact h.waiting
  · rw [hbacklog, hconnected]
    exact h.known
  · rw [hfds, hbacklog, hconnected]
    exact h.accepted
  · rw [hfds]
    exact h.single

theorem Separate.act (h : s.Separate) {a : NetAction} (ha : s.act a = some (t, seen)) :
    t.Separate := by
  cases a with
  | connect id =>
    simp only [Sockets.act] at ha
    split at ha
    · cases ha
    · rename_i hnew
      cases ha
      have hwaiting : id ∉ s.backlog := fun hin => hnew (h.known id hin)
      constructor
      · simpa [List.nodup_append] using ⟨h.waiting, fun _ hin hsame => hwaiting (hsame ▸ hin)⟩
      · intro id' hin
        rcases List.mem_append.mp hin with hin | hin
        · exact List.mem_cons_of_mem _ (h.known id' hin)
        · rw [List.mem_singleton.mp hin]
          exact List.mem_cons_self
      · intro fd id' hfd
        obtain ⟨hknown, hnot⟩ := h.accepted fd id' hfd
        refine ⟨List.mem_cons_of_mem _ hknown, ?_⟩
        rw [List.mem_append, List.mem_singleton, not_or]
        exact ⟨hnot, fun hsame => hnew (hsame ▸ hknown)⟩
      · exact h.single
  | send id data =>
    simp only [Sockets.act] at ha
    split at ha
    · cases ha
      exact h.congr rfl rfl rfl
    · cases ha
  | finish id =>
    simp only [Sockets.act] at ha
    split at ha
    · cases ha
      exact h.congr rfl rfl rfl
    · cases ha
  | deliver id n =>
    cases ha
    exact h.congr rfl rfl rfl
  | deliverFin id =>
    simp only [Sockets.act] at ha
    split at ha
    · cases ha
      exact h.congr rfl rfl rfl
    · cases ha

/-- The descriptor is free before and stands for a connection that no other has. -/
theorem Separate.accept (h : s.Separate) {fd : Nat} (ha : s.accept fd = some t) :
    t.Separate ∧ ∃ id, t.fds fd = some id := by
  unfold Sockets.accept at ha
  split at ha
  · rename_i id rest hbacklog hfree
    cases ha
    have hwaiting := h.waiting
    rw [hbacklog, List.nodup_cons] at hwaiting
    have hid : id ∈ s.backlog := by simp [hbacklog]
    have hkeep : ∀ id' ∈ rest, id' ∈ s.backlog := fun id' hin => by simp [hbacklog, hin]
    have hopen : ∀ fd' id', Function.update s.fds fd (some id) fd' = some id' →
        fd' = fd ∧ id' = id ∨ s.fds fd' = some id' := by
      intro fd' id' hfd'
      by_cases hsame : fd' = fd
      · rw [hsame, Function.update_self] at hfd'
        cases hfd'
        exact Or.inl ⟨hsame, rfl⟩
      · rw [Function.update_of_ne hsame] at hfd'
        exact Or.inr hfd'
    refine ⟨⟨hwaiting.2, fun id' hin => h.known id' (hkeep id' hin), ?_, ?_⟩,
      id, Function.update_self ..⟩
    · intro fd' id' hfd'
      rcases hopen fd' id' hfd' with ⟨rfl, rfl⟩ | hold
      · exact ⟨h.known id' hid, hwaiting.1⟩
      · obtain ⟨hknown, hnot⟩ := h.accepted fd' id' hold
        exact ⟨hknown, fun hin => hnot (hkeep id' hin)⟩
    · intro fd' fd'' id' hfd' hfd''
      rcases hopen fd' id' hfd' with ⟨rfl, rfl⟩ | hold <;>
        rcases hopen fd'' id' hfd'' with ⟨rfl, hnew⟩ | hold'
      · rfl
      · exact absurd hid (h.accepted fd'' id' hold').2
      · subst hnew
        exact absurd hid (h.accepted fd' id' hold).2
      · exact h.single fd' fd'' id' hold hold'
  · cases ha

/-- Closing takes an open descriptor away and leaves all others. -/
theorem close_spec {fd id : Nat} (hfd : s.fds fd = some id) :
    (s.close fd).1.conns = s.conns ∧ (s.close fd).1.fds fd = none ∧
      (∀ fd', fd' ≠ fd → (s.close fd).1.fds fd' = s.fds fd') ∧ (s.close fd).2 = [.closed id] := by
  unfold close
  rw [hfd]
  exact ⟨rfl, Function.update_self .., fun fd' hne => Function.update_of_ne hne .., rfl⟩

theorem Separate.close (h : s.Separate) {fd id : Nat} (hfd : s.fds fd = some id) :
    (s.close fd).1.Separate := by
  have hkept : ∀ fd' id', (s.close fd).1.fds fd' = some id' → s.fds fd' = some id' := by
    intro fd' id' hfd'
    by_cases hsame : fd' = fd
    · rw [hsame, (close_spec hfd).2.1] at hfd'
      cases hfd'
    · rwa [(close_spec hfd).2.2.1 fd' hsame] at hfd'
  have hbacklog : (s.close fd).1.backlog = s.backlog := by simp only [Sockets.close, hfd]
  have hconnected : (s.close fd).1.connected = s.connected := by simp only [Sockets.close, hfd]
  constructor
  · rw [hbacklog]
    exact h.waiting
  · rw [hbacklog, hconnected]
    exact h.known
  · intro fd' id' hfd'
    rw [hbacklog, hconnected]
    exact h.accepted fd' id' (hkept fd' id' hfd')
  · intro fd' fd'' id' hfd' hfd''
    exact h.single fd' fd'' id' (hkept fd' id' hfd') (hkept fd'' id' hfd'')

/-! ## Sockets with octets in front of what waits to be read -/

def prepend (net : Sockets) (front : Nat → List UInt8) : Sockets :=
  { net with conns := fun id =>
      { net.conns id with queue := front id ++ (net.conns id).queue } }

theorem set_prepend {net : Sockets} {front : Nat → List UInt8} {id : Nat} {c : Conn} :
    (net.set id c).prepend front =
      (net.prepend front).set id { c with queue := front id ++ c.queue } := by
  simp only [prepend, set, Sockets.mk.injEq, and_true]
  funext id'
  by_cases hsame : id' = id
  · subst hsame
    simp
  · simp [hsame]

/-- Clients and network do the same to the streams. -/
theorem act_prepend {net net' : Sockets} {a : NetAction} {es : List Event}
    (front : Nat → List UInt8) (ha : net.act a = some (net', es)) :
    (net.prepend front).act a = some (net'.prepend front, es) := by
  cases a with
  | connect id =>
    simp only [act] at ha
    split at ha
    · cases ha
    · rename_i hnew
      cases ha
      exact if_neg hnew
  | send id data =>
    simp only [act] at ha
    split at ha
    · rename_i hopen
      cases ha
      rw [set_prepend]
      exact if_pos hopen
    · cases ha
  | finish id =>
    simp only [act] at ha
    split at ha
    · rename_i hopen
      cases ha
      rw [set_prepend]
      exact if_pos hopen
    · cases ha
  | deliver id n =>
    cases ha
    rw [set_prepend, ← List.append_assoc]
    rfl
  | deliverFin id =>
    simp only [act] at ha
    split at ha
    · rename_i hlast
      cases ha
      rw [set_prepend]
      exact if_pos hlast
    · cases ha

end CppCodes.Source.Net.Sockets
