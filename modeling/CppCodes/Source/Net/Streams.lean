import CppCodes.Source.Net.Sockets

/-!
# Streams through the sockets

What a client has sent is what the server has written, then what waits to be read,
then what is on the way; and the end of the stream arrives last.
-/

set_option autoImplicit false

namespace CppCodes.Source.Net

variable {trace seen : List Event} {id : Nat}

@[simp] theorem sent_append : sent id (trace ++ seen) = sent id trace ++ sent id seen := by
  simp [sent]

@[simp] theorem output_append : output id (trace ++ seen) = output id trace ++ output id seen := by
  simp [output]

theorem sent_sent {id' : Nat} {data : List UInt8} :
    sent id [.sent id' data] = if id' = id then data else [] := by
  by_cases h : id' = id <;> simp [sent, sentOf, h]

theorem output_output {id' : Nat} {data : List UInt8} :
    output id [.output id' data] = if id' = id then data else [] := by
  by_cases h : id' = id <;> simp [output, outputOf, h]

@[simp] theorem output_sent {id' : Nat} {data : List UInt8} : output id [.sent id' data] = [] := rfl

@[simp] theorem sent_output {id' : Nat} {data : List UInt8} : sent id [.output id' data] = [] := rfl

@[simp] theorem sent_nil : sent id [] = [] := rfl

@[simp] theorem output_nil : output id [] = [] := rfl

@[simp] theorem sent_finished {id' : Nat} : sent id [.finished id'] = [] := rfl

@[simp] theorem output_finished {id' : Nat} : output id [.finished id'] = [] := rfl

@[simp] theorem sent_closed {id' : Nat} : sent id [.closed id'] = [] := rfl

@[simp] theorem output_closed {id' : Nat} : output id [.closed id'] = [] := rfl

@[simp] theorem sent_undefined : sent id [.undefined] = [] := rfl

@[simp] theorem output_undefined : output id [.undefined] = [] := rfl

/-- One connection and its history. -/
structure Conn.Flow (c : Conn) (trace : List Event) (id : Nat) : Prop where
  stream : sent id trace = output id trace ++ (c.queue ++ c.inFlight)
  fin : c.fin = true → c.inFlight = [] ∧ c.finished = true
  finished : c.finished = true → .finished id ∈ trace

namespace Sockets

def Flow (s : Sockets) (trace : List Event) : Prop := ∀ id, (s.conns id).Flow trace id

variable {s t : Sockets}

theorem flow_empty : empty.Flow [] := fun _ => ⟨rfl, nofun, nofun⟩

/-- What is written before the end of the stream arrives is the whole of it exactly when
nothing is left to read. -/
theorem Flow.output_iff (h : s.Flow trace) (hfin : (s.conns id).fin = true) :
    output id trace = sent id trace ↔ (s.conns id).queue = [] := by
  rw [(h id).stream, ((h id).fin hfin).1, List.append_nil]
  simp

theorem Flow.prefix (h : s.Flow trace) (id : Nat) : output id trace <+: sent id trace := by
  rw [(h id).stream]
  exact List.prefix_append ..

/-- An event that is about no stream. -/
theorem Flow.quiet (h : s.Flow trace) (hconns : t.conns = s.conns)
    (hsent : ∀ id, sent id seen = []) (houtput : ∀ id, output id seen = []) :
    t.Flow (trace ++ seen) := by
  intro id
  obtain ⟨hstream, hfin, hfinished⟩ := h id
  rw [hconns]
  refine ⟨?_, hfin, fun hf => List.mem_append_left _ (hfinished hf)⟩
  rw [sent_append, output_append, hsent, houtput, List.append_nil, List.append_nil, hstream]

/-- One connection changes. -/
theorem Flow.set (h : s.Flow trace) {id' : Nat} {c : Conn} (hc : c.Flow (trace ++ seen) id')
    (hsent : ∀ id, id ≠ id' → sent id seen = []) (houtput : ∀ id, id ≠ id' → output id seen = []) :
    (s.set id' c).Flow (trace ++ seen) := by
  intro id
  by_cases hid : id = id'
  · subst hid
    rw [show (s.set id c).conns id = c from Function.update_self ..]
    exact hc
  · obtain ⟨hstream, hfin, hfinished⟩ := h id
    rw [show (s.set id' c).conns id = s.conns id from Function.update_of_ne hid ..]
    refine ⟨?_, hfin, fun hf => List.mem_append_left _ (hfinished hf)⟩
    rw [sent_append, output_append, hsent id hid, houtput id hid, List.append_nil,
      List.append_nil, hstream]

theorem flow_read (h : s.Flow trace) {n : Nat} :
    (s.read id n).1.Flow (trace ++ (s.read id n).2) := by
  obtain ⟨hstream, hfin, hfinished⟩ := h id
  have hseen : (s.read id n).2 = [.output id ((s.conns id).queue.take n)] := rfl
  refine h.set ⟨?_, hfin, fun hf => List.mem_append_left _ (hfinished hf)⟩ ?_ ?_
  · rw [hseen, sent_append, output_append, output_output, if_pos rfl, sent_output, hstream,
      List.append_nil, List.append_assoc, ← List.append_assoc (List.take n _),
      List.take_append_drop]
  · exact fun _ _ => rfl
  · intro id' hid
    rw [hseen, output_output, if_neg hid.symm]

theorem read_fin {n : Nat} (id' : Nat) : ((s.read id n).1.conns id').fin = (s.conns id').fin := by
  by_cases hid : id' = id
  · subst hid
    simp [read, set]
  · simp [read, set, hid]

theorem accept_spec {fd : Nat} (h : s.accept fd = some t) :
    s.fds fd = none ∧ t.conns = s.conns ∧ ∀ fd', fd' ≠ fd → t.fds fd' = s.fds fd' := by
  unfold accept at h
  split at h
  · rename_i hfd
    cases h
    exact ⟨hfd, rfl, fun fd' hne => Function.update_of_ne hne ..⟩
  · cases h

theorem flow_close (h : s.Flow trace) (fd : Nat) : (s.close fd).1.Flow (trace ++ (s.close fd).2) := by
  unfold close
  cases s.fds fd with
  | none => exact h.quiet rfl (fun _ => rfl) fun _ => rfl
  | some id => exact h.quiet rfl (fun _ => rfl) fun _ => rfl

/-- Clients and network change neither the descriptors nor what has been established
about a connection. -/
structure Progress (s t : Sockets) : Prop where
  fds : t.fds = s.fds
  fin : ∀ id, (s.conns id).fin = true → (t.conns id).fin = true
  readable : ∀ id, (s.conns id).readable = true → (t.conns id).readable = true

theorem progress_set {id' : Nat} {c : Conn} (hfin : (s.conns id').fin = true → c.fin = true)
    (hreadable : (s.conns id').readable = true → c.readable = true) : Progress s (s.set id' c) := by
  refine ⟨rfl, ?_, ?_⟩ <;> intro id h <;> by_cases hid : id = id'
  · subst hid
    rw [show (s.set id c).conns id = c from Function.update_self ..]
    exact hfin h
  · rwa [show (s.set id' c).conns id = s.conns id from Function.update_of_ne hid ..]
  · subst hid
    rw [show (s.set id c).conns id = c from Function.update_self ..]
    exact hreadable h
  · rwa [show (s.set id' c).conns id = s.conns id from Function.update_of_ne hid ..]

/-- An event of a client or of the network. -/
def External (e : Event) : Prop := ∀ id, e ≠ .closed id ∧ e ≠ .undefined

theorem act_spec (h : s.Flow trace) {a : NetAction} (ha : s.act a = some (t, seen)) :
    t.Flow (trace ++ seen) ∧ Progress s t ∧ (seen = [] ∨ ∃ e, seen = [e] ∧ External e) := by
  cases a with
  | connect id =>
    simp only [act] at ha
    split at ha
    · cases ha
    · cases ha
      exact ⟨h.quiet rfl (fun _ => rfl) fun _ => rfl, ⟨rfl, fun _ hf => hf, fun _ hr => hr⟩,
        Or.inl rfl⟩
  | send id data =>
    simp only [act] at ha
    split at ha
    · rename_i hopen
      cases ha
      obtain ⟨hstream, hfin, hfinished⟩ := h id
      have hnot : (s.conns id).fin ≠ true := by
        intro hf
        rw [(hfin hf).2] at hopen
        cases hopen.2
      refine ⟨h.set ⟨?_, fun hf => absurd hf hnot, fun hf => ?_⟩ ?_ fun _ _ => rfl,
        progress_set (fun hf => hf) fun hr => hr, Or.inr ⟨_, rfl, fun _ => ⟨nofun, nofun⟩⟩⟩
      · rw [sent_append, output_append, sent_sent, if_pos rfl, output_sent, hstream]
        simp
      · exact List.mem_append_left _ (hfinished hf)
      · intro id' hid
        rw [sent_sent, if_neg hid.symm]
    · cases ha
  | finish id =>
    simp only [act] at ha
    split at ha
    · cases ha
      obtain ⟨hstream, hfin, -⟩ := h id
      refine ⟨h.set ⟨?_, fun hf => ⟨(hfin hf).1, rfl⟩, fun _ => ?_⟩ (fun _ _ => rfl) fun _ _ => rfl,
        progress_set (fun hf => hf) fun hr => hr, Or.inr ⟨_, rfl, fun _ => ⟨nofun, nofun⟩⟩⟩
      · simpa using hstream
      · exact List.mem_append_right _ List.mem_cons_self
    · cases ha
  | deliver id n =>
    cases ha
    obtain ⟨hstream, hfin, hfinished⟩ := h id
    refine ⟨h.set ⟨?_, fun hf => ⟨?_, (hfin hf).2⟩, fun hf => ?_⟩ (fun _ _ => rfl) fun _ _ => rfl,
      progress_set (fun hf => hf) ?_, Or.inl rfl⟩
    · simpa using hstream
    · simp [(hfin hf).1]
    · simpa using hfinished hf
    · intro hr
      simp only [Conn.readable, Bool.or_eq_true, decide_eq_true_eq] at hr ⊢
      exact hr.imp_left fun hq => by simp [hq]
  | deliverFin id =>
    simp only [act] at ha
    split at ha
    · rename_i hlast
      cases ha
      obtain ⟨hstream, -, hfinished⟩ := h id
      refine ⟨h.set ⟨?_, fun _ => ⟨hlast.2, hlast.1⟩, fun hf => ?_⟩ (fun _ _ => rfl) fun _ _ => rfl,
        progress_set (fun _ => rfl) (fun _ => by simp [Conn.readable]), Or.inl rfl⟩
      · simpa using hstream
      · simpa using hfinished hf
    · cases ha

end Sockets

end CppCodes.Source.Net
