import CppCodes.Library.History
import CppCodes.Source.Net.EpollServer
import CppCodes.Source.Net.SelectServer
import CppCodes.Source.Net.Streams

/-!
# What the servers write before they close

The select server closes a descriptor when a read says that the stream has ended. The
epoll server closes it as well when the event says that the client hung up, and does
not read what came before the end of the stream.
-/

set_option autoImplicit false

namespace CppCodes.Guarantees.StreamOutput

open Library
open Source.Net

/-- What is written of a client's stream is always the beginning of it, and when its
descriptor is closed it is all of it and the client has ended it. -/
structure Complete (trace : List Event) : Prop where
  inOrder : Always (fun now => ∀ id, output id now <+: sent id now) trace
  whole : Each (fun before e => ∀ id, e = .closed id →
    output id before = sent id before ∧ .finished id ∈ before) trace

theorem complete_nil : Complete [] :=
  ⟨always_nil_iff.mpr fun _ => List.prefix_rfl, each_nil⟩

theorem complete_snoc_iff {trace : List Event} {e : Event} : Complete (trace ++ [e]) ↔
    Complete trace ∧ (∀ id, output id (trace ++ [e]) <+: sent id (trace ++ [e])) ∧
      ∀ id, e = .closed id → output id trace = sent id trace ∧ .finished id ∈ trace := by
  constructor
  · intro hboth
    obtain ⟨hinOrder, hwhole⟩ := hboth
    obtain ⟨hbefore, hnow⟩ := always_snoc_iff.mp hinOrder
    obtain ⟨hearlier, hlast⟩ := each_snoc_iff.mp hwhole
    exact ⟨⟨hbefore, hearlier⟩, hnow, hlast⟩
  · intro hparts
    obtain ⟨⟨hbefore, hearlier⟩, hnow, hlast⟩ := hparts
    exact ⟨always_snoc_iff.mpr ⟨hbefore, hnow⟩, each_snoc_iff.mpr ⟨hearlier, hlast⟩⟩

/-- What one step of a server shows: nothing of a close, or the close of a descriptor
whose client's stream has arrived to its end, with nothing left to read just if `drained`. -/
inductive Shows (net : Sockets) (drained : Prop) : List Event → Prop where
  | nothing (hd : drained) : Shows net drained []
  | other (e : Event) (he : ∀ id, e ≠ .closed id) (hd : drained) : Shows net drained [e]
  | close (id : Nat) (fin : (net.conns id).fin = true)
      (hd : (net.conns id).queue = [] ↔ drained) : Shows net drained [.closed id]

/-- What a step shows decides whether the history stays complete. -/
theorem Shows.complete_iff {net net' : Sockets} {drained : Prop} {trace seen : List Event}
    (h : Shows net drained seen) (flow : net.Flow trace) (flow' : net'.Flow (trace ++ seen)) :
    Complete (trace ++ seen) ↔ Complete trace ∧ drained := by
  cases h with
  | nothing hd =>
    rw [List.append_nil]
    exact (and_iff_left hd).symm
  | other e he hd =>
    rw [complete_snoc_iff]
    refine and_congr_right fun _ => iff_of_true ⟨fun id => flow'.prefix id, ?_⟩ hd
    exact fun id h => absurd h (he id)
  | close id fin hd =>
    rw [complete_snoc_iff]
    refine and_congr_right fun _ => ?_
    constructor
    · intro hboth
      obtain ⟨-, hclose⟩ := hboth
      exact hd.mp ((flow.output_iff fin).mp (hclose id rfl).1)
    · intro hdrained
      refine ⟨fun id => flow'.prefix id, ?_⟩
      intro id' hid
      cases hid
      exact ⟨(flow.output_iff fin).mpr (hd.mpr hdrained),
        (flow id).finished ((flow id).fin fin).2⟩

theorem Sockets.External.shows {net : Sockets} {drained : Prop} {seen : List Event} (hd : drained)
    (h : seen = [] ∨ ∃ e, seen = [e] ∧ Sockets.External e) : Shows net drained seen := by
  rcases h with rfl | ⟨e, rfl, he⟩
  · exact .nothing hd
  · exact .other e (fun id => (he id).1) hd

theorem close_seen {net : Sockets} {fd id : Nat} (h : net.fds fd = some id) :
    (net.close fd).2 = [.closed id] := by
  simp [Sockets.close, h]

namespace Epoll

open EpollServer

/-- An event that reports a hang-up is handled when nothing of that client's is left to
read. -/
def HangUpDrained (s : Server) : Action → Prop
  | .nextEvent =>
      match s.phase with
      | .handling ((.client fd, mask) :: _) =>
          match s.net.fds fd with
          | none => True
          | some id => mask.hangUp = true → (s.net.conns id).queue = []
      | _ => True
  | _ => True

instance (s : Server) (a : Action) : Decidable (HangUpDrained s a) := by
  unfold HangUpDrained
  split
  · split
    · split <;> infer_instance
    · infer_instance
  · infer_instance

/-- The events not handled yet. -/
def pending : Phase → List (Fd × Mask)
  | .waiting => []
  | .handling batch | .accepting batch | .receiving _ batch => batch

/-- The descriptor the receiving loop is at. -/
def current : Phase → Option Nat
  | .receiving fd _ => some fd
  | _ => none

/-- Each pending event is about a descriptor of its own that is still open, and what it
says about a hang-up is still true. -/
structure Pending (net : Sockets) (phase : Phase) : Prop where
  nodup : ((pending phase).map Prod.fst).Nodup
  apart : ∀ fd, current phase = some fd → .client fd ∉ (pending phase).map Prod.fst
  events : ∀ fd mask, (.client fd, mask) ∈ pending phase →
    ∃ id, net.fds fd = some id ∧ (mask.hangUp = true → (net.conns id).fin = true)

structure Inv (s : Server) (trace : List Event) : Prop where
  flow : s.net.Flow trace
  pending : Pending s.net s.phase

variable {s t : Server} {trace seen : List Event}

theorem Pending.congr {net net' : Sockets} {phase : Phase} (h : Pending net phase)
    (hfds : ∀ fd, net.fds fd ≠ none → net'.fds fd = net.fds fd)
    (hends : ∀ id, (net.conns id).fin = true → (net'.conns id).fin = true) :
    Pending net' phase := by
  refine ⟨h.nodup, h.apart, ?_⟩
  intro fd mask hmem
  obtain ⟨id, hfd, hfin⟩ := h.events fd mask hmem
  refine ⟨id, ?_, fun hm => hends id (hfin hm)⟩
  rw [hfds fd (by rw [hfd]; exact nofun), hfd]

/-- Closing a descriptor that no pending event is about. -/
theorem Pending.close {net : Sockets} {batch : List (Fd × Mask)} {phase : Phase} {fd : Nat}
    (h : Pending net phase) (hbatch : pending phase = batch)
    (hfd : .client fd ∉ batch.map Prod.fst) : Pending (net.close fd).1 (.handling batch) := by
  subst hbatch
  refine ⟨h.nodup, nofun, ?_⟩
  intro fd' mask hmem
  have hne : fd' ≠ fd := by
    intro hsame
    obtain rfl := hsame
    exact hfd (List.mem_map_of_mem hmem)
  obtain ⟨id, hid, hfin⟩ := h.events fd' mask hmem
  unfold Sockets.close
  cases net.fds fd with
  | none => exact ⟨id, hid, hfin⟩
  | some _ => exact ⟨id, (Function.update_of_ne hne ..).trans hid, hfin⟩

theorem Pending.handling {net : Sockets} {phase : Phase} (h : Pending net phase) :
    Pending net (.handling (pending phase)) := ⟨h.nodup, nofun, h.events⟩

/-- The events that remain once the first one is taken. -/
theorem Pending.tail {net : Sockets} {fd : Fd} {mask : Mask} {batch : List (Fd × Mask)}
    (h : Pending net (.handling ((fd, mask) :: batch))) :
    Pending net (.handling batch) ∧ fd ∉ batch.map Prod.fst := by
  obtain ⟨hfd, hbatch⟩ := List.nodup_cons.mp h.nodup
  exact ⟨⟨hbatch, nofun, fun fd' mask' hmem => h.events fd' mask' (List.mem_cons_of_mem _ hmem)⟩,
    hfd⟩

/-- An event is taken up: the listener's starts the loop over `accept`, a hang-up closes
the descriptor, anything else starts the loop over `recv`. -/
theorem Inv.nextEvent (inv : Inv s trace)
    (hstep : EpollServer.step s .nextEvent = some (t, seen)) :
    Inv t (trace ++ seen) ∧ Shows s.net (HangUpDrained s .nextEvent) seen := by
  obtain ⟨flow, hpending⟩ := inv
  simp only [EpollServer.step] at hstep
  cases hphase : s.phase with
  | waiting => simp [hphase] at hstep
  | accepting batch => simp [hphase] at hstep
  | receiving fd batch => simp [hphase] at hstep
  | handling batch =>
    rw [hphase] at hpending
    cases batch with
    | nil =>
      simp only [hphase] at hstep
      cases hstep
      rw [List.append_nil]
      exact ⟨⟨flow, List.nodup_nil, by simp [current], by simp [Epoll.pending]⟩,
        .nothing (by simp [HangUpDrained, hphase])⟩
    | cons event batch =>
      obtain ⟨source, mask⟩ := event
      obtain ⟨htail, hfd⟩ := hpending.tail
      cases source with
      | listener =>
        simp only [hphase] at hstep
        cases hstep
        rw [List.append_nil]
        exact ⟨⟨flow, htail.nodup, by simp [current], htail.events⟩,
          .nothing (by simp [HangUpDrained, hphase])⟩
      | client fd =>
        obtain ⟨id, hid, hfin⟩ := hpending.events fd mask List.mem_cons_self
        have hcond : HangUpDrained s .nextEvent ↔
            (mask.hangUp = true → (s.net.conns id).queue = []) := by
          simp [HangUpDrained, hphase, hid]
        by_cases hm : mask.hangUp = true
        · simp only [hphase, if_pos hm] at hstep
          cases hstep
          refine ⟨⟨Sockets.flow_close flow fd, htail.close rfl hfd⟩, ?_⟩
          rw [close_seen hid, hcond]
          exact .close id (hfin hm) ⟨fun h _ => h, fun h => h hm⟩
        · simp only [hphase, if_neg hm] at hstep
          cases hstep
          rw [List.append_nil]
          refine ⟨⟨flow, htail.nodup, ?_, htail.events⟩,
            .nothing (hcond.mpr fun h => absurd h hm)⟩
          intro fd' h
          cases h
          exact hfd

/-- One `recv`: octets are read, or the stream is over and the descriptor closed, or there
is nothing yet. -/
theorem Inv.recv {n : Nat} (inv : Inv s trace)
    (hstep : EpollServer.step s (.recv n) = some (t, seen)) :
    Inv t (trace ++ seen) ∧ Shows s.net (HangUpDrained s (.recv n)) seen := by
  obtain ⟨flow, hpending⟩ := inv
  simp only [EpollServer.step] at hstep
  split at hstep
  · rename_i fd batch hphase
    rw [hphase] at hpending
    split at hstep
    · cases hstep
      rw [List.append_nil]
      exact ⟨⟨flow, hpending.handling⟩, .nothing trivial⟩
    · rename_i id hid
      split at hstep
      · rename_i hqueue
        split at hstep
        · rename_i hfin
          cases hstep
          refine ⟨⟨Sockets.flow_close flow fd, hpending.close rfl (hpending.apart fd rfl)⟩, ?_⟩
          rw [close_seen hid]
          exact .close id hfin (iff_of_true hqueue trivial)
        · cases hstep
          rw [List.append_nil]
          exact ⟨⟨flow, hpending.handling⟩, .nothing trivial⟩
      · split at hstep
        · cases hstep
          refine ⟨⟨Sockets.flow_read flow, ?_⟩, .other _ (by simp) trivial⟩
          show Pending _ s.phase
          rw [hphase]
          refine hpending.congr (fun _ _ => rfl) ?_
          intro id' h
          rwa [Sockets.read_fin]
        · cases hstep
  · cases hstep

theorem Inv.step {a : Action} (inv : Inv s trace) (hstep : step s a = some (t, seen)) :
    Inv t (trace ++ seen) ∧ Shows s.net (HangUpDrained s a) seen := by
  obtain ⟨flow, hpending⟩ := inv
  cases a with
  | net a =>
    simp only [EpollServer.step, Option.map_eq_some_iff] at hstep
    obtain ⟨⟨net, seen'⟩, hact, h⟩ := hstep
    cases h
    obtain ⟨hflow, hprogress, hseen⟩ := Sockets.act_spec flow hact
    exact ⟨⟨hflow, hpending.congr (fun fd _ => congrFun hprogress.fds fd) hprogress.fin⟩,
      Sockets.External.shows trivial hseen⟩
  | epollWait ready =>
    simp only [EpollServer.step] at hstep
    split at hstep
    · split at hstep
      · rename_i hready
        cases hstep
        rw [List.append_nil]
        refine ⟨⟨flow, ?_, by simp [current], ?_⟩, .nothing trivial⟩
        · show ((ready.map fun fd => (fd, maskOf s.net fd)).map Prod.fst).Nodup
          rw [List.map_map]
          simpa [Function.comp_def] using hready.1
        · intro fd mask hmem
          obtain ⟨fd', hfd', h⟩ := List.mem_map.mp hmem
          cases h
          have hreadable := hready.2 _ hfd'
          simp only [maskOf] at hreadable ⊢
          cases hfd : s.net.fds fd with
          | none => simp [hfd] at hreadable
          | some id => exact ⟨id, rfl, fun h => h⟩
      · cases hstep
    · cases hstep
  | nextEvent => exact Inv.nextEvent ⟨flow, hpending⟩ hstep
  | accept fd =>
    simp only [EpollServer.step] at hstep
    split at hstep
    · rename_i batch hphase
      obtain ⟨net, hnet, h⟩ := Option.map_eq_some_iff.mp hstep
      cases h
      rw [List.append_nil]
      obtain ⟨hfree, hconns, hothers⟩ := Sockets.accept_spec hnet
      refine ⟨⟨?_, hpending.congr ?_ ?_⟩, .nothing trivial⟩
      · rw [← List.append_nil trace]
        exact flow.quiet hconns (fun _ => rfl) fun _ => rfl
      · intro fd' hopen
        refine hothers fd' ?_
        intro hsame
        obtain rfl := hsame
        exact hopen hfree
      · rw [hconns]
        exact fun _ h => h
    · cases hstep
  | acceptEnds =>
    simp only [EpollServer.step] at hstep
    split at hstep
    · rename_i batch hphase
      cases hstep
      rw [hphase] at hpending
      rw [List.append_nil]
      exact ⟨⟨flow, hpending.handling⟩, .nothing trivial⟩
    · cases hstep
  | recv n => exact Inv.recv ⟨flow, hpending⟩ hstep

theorem start_inv : Inv start [] :=
  ⟨Sockets.flow_empty, List.nodup_nil, nofun, nofun⟩

theorem run_complete_iff {actions : List Action} (h : machine.Run start actions s trace) :
    Complete trace ↔ machine.StepsMeet HangUpDrained start actions := by
  have hinv : ∀ {actions s trace}, machine.Run start actions s trace → Inv s trace := fun h =>
    h.invariant start_inv fun inv hstep => (inv.step hstep).1
  refine h.induction
    (P := fun actions _ trace => Complete trace ↔ machine.StepsMeet HangUpDrained start actions)
    (iff_of_true complete_nil trivial) ?_
  intro actions s trace a t seen hrun ih hstep
  obtain ⟨hnext, hshows⟩ := (hinv hrun).step hstep
  rw [Machine.stepsMeet_snoc_iff hrun, ← ih]
  exact hshows.complete_iff (hinv hrun).flow hnext.flow

end Epoll

namespace Select

open SelectServer

/-- The descriptor `accept` returns is one that a set can hold. -/
def DescriptorsFit (_ : Server) : Action → Prop
  | .accept fd => fd < fdSetSize
  | _ => True

instance (s : Server) (a : Action) : Decidable (DescriptorsFit s a) := by
  unfold DescriptorsFit
  split <;> infer_instance

variable {s t : Server} {trace seen : List Event} {listenFd : Nat}

/-- A step shows no close before the end of the stream, and something undefined exactly
when a descriptor does not fit. -/
theorem step_spec {a : Action} (flow : s.net.Flow trace) (hstep : step s a = some (t, seen)) :
    t.net.Flow (trace ++ seen) ∧ Shows s.net True seen ∧
      (.undefined ∉ seen ↔ DescriptorsFit s a) := by
  have quiet : s.net.Flow (trace ++ []) ∧ Shows s.net True [] ∧
      (Event.undefined ∉ ([] : List Event) ↔ True) := by
    rw [List.append_nil]
    exact ⟨flow, .nothing trivial, iff_of_true List.not_mem_nil trivial⟩
  cases a with
  | net a =>
    obtain ⟨⟨net, seen'⟩, hact, h⟩ := Option.map_eq_some_iff.mp hstep
    cases h
    obtain ⟨hflow, -, hseen⟩ := Sockets.act_spec flow hact
    refine ⟨hflow, Sockets.External.shows trivial hseen, iff_of_true ?_ trivial⟩
    rcases hseen with rfl | ⟨e, rfl, he⟩
    · exact List.not_mem_nil
    · exact fun hmem => (he 0).2 (List.mem_singleton.mp hmem).symm
  | select readSet =>
    simp only [step] at hstep
    split at hstep
    · split at hstep <;> cases hstep
      exact quiet
    · cases hstep
  | scan =>
    simp only [step] at hstep
    split at hstep
    · split at hstep
      · split at hstep <;> cases hstep
        exact quiet
      · cases hstep
        exact quiet
    · cases hstep
  | accept newFd =>
    simp only [step] at hstep
    split at hstep
    · split at hstep
      · obtain ⟨net, hnet, h⟩ := Option.map_eq_some_iff.mp hstep
        cases h
        obtain ⟨-, hconns, -⟩ := Sockets.accept_spec hnet
        by_cases hfit : newFd < fdSetSize
        · rw [if_pos hfit]
          exact ⟨flow.quiet hconns (fun _ => rfl) fun _ => rfl, .nothing trivial,
            iff_of_true List.not_mem_nil hfit⟩
        · rw [if_neg hfit]
          exact ⟨flow.quiet hconns (fun _ => rfl) fun _ => rfl, .other _ (by simp) trivial,
            iff_of_false (fun h => h List.mem_cons_self) hfit⟩
      · cases hstep
    · cases hstep
  | acceptFails =>
    simp only [step] at hstep
    split at hstep
    · split at hstep <;> cases hstep
      exact quiet
    · cases hstep
  | recv n =>
    simp only [step] at hstep
    split at hstep
    · split at hstep
      · split at hstep
        · cases hstep
          exact quiet
        · rename_i fd readSet left _ _ _ id hid
          split at hstep
          · rename_i hqueue
            split at hstep
            · rename_i hfin
              cases hstep
              refine ⟨Sockets.flow_close flow fd, ?_, ?_⟩ <;> rw [close_seen hid]
              · exact .close id hfin (iff_of_true hqueue trivial)
              · exact iff_of_true (by simp) trivial
            · cases hstep
          · split at hstep
            · cases hstep
              refine ⟨Sockets.flow_read flow, .other _ (by simp) trivial, ?_⟩
              refine iff_of_true ?_ trivial
              intro h
              cases List.mem_singleton.mp h
            · cases hstep
      · cases hstep
    · cases hstep

/-- In every run each stream is written whole before its descriptor is closed, and
nothing undefined happens as long as the descriptors fit. -/
theorem run_complete {actions : List Action}
    (h : machine.Run (start listenFd) actions s trace) :
    Complete trace ∧ s.net.Flow trace ∧
      (.undefined ∉ trace ↔ machine.StepsMeet DescriptorsFit (start listenFd) actions) := by
  refine h.induction (P := fun actions s trace => Complete trace ∧ s.net.Flow trace ∧
      (.undefined ∉ trace ↔ machine.StepsMeet DescriptorsFit (start listenFd) actions))
    ⟨complete_nil, Sockets.flow_empty, iff_of_true List.not_mem_nil trivial⟩ ?_
  intro actions s trace a t seen hrun hparts hstep
  obtain ⟨hcomplete, hflow, hfit⟩ := hparts
  obtain ⟨hnext, hshows, hdefined⟩ := step_spec hflow hstep
  refine ⟨(hshows.complete_iff hflow hnext).mpr ⟨hcomplete, trivial⟩, hnext, ?_⟩
  rw [Machine.stepsMeet_snoc_iff hrun, List.mem_append, not_or, hfit, hdefined]

end Select

/-- **Streams.** The epoll server writes the whole stream of every client before it
closes the descriptor exactly if it handles no hang-up of a client with octets left to
read. The select server always does, and does nothing undefined exactly if every
descriptor it accepts fits into a set. -/
theorem servers_write_streams_iff (listenFd : Nat) (trace : List Event) :
    (∀ actions s, EpollServer.machine.Run EpollServer.start actions s trace →
      (Complete trace ↔
        EpollServer.machine.StepsMeet Epoll.HangUpDrained EpollServer.start actions)) ∧
      ∀ actions s, SelectServer.machine.Run (SelectServer.start listenFd) actions s trace →
        (Complete trace ∧ .undefined ∉ trace ↔
          SelectServer.machine.StepsMeet Select.DescriptorsFit (SelectServer.start listenFd)
            actions) := by
  refine ⟨fun _ _ h => Epoll.run_complete_iff h, ?_⟩
  intro actions s h
  obtain ⟨hcomplete, -, hfit⟩ := Select.run_complete h
  rw [← hfit]
  exact and_iff_right hcomplete

/-- A client connects and is accepted as descriptor 5. -/
def connectOne : List EpollServer.Action :=
  [.net (.connect 0), .epollWait [.listener], .nextEvent, .accept 5, .acceptEnds, .nextEvent]

/-- It sends `hi`, which is read, and then closes. -/
def readThenClose : List EpollServer.Action :=
  connectOne ++ [.net (.send 0 [104, 105]), .net (.deliver 0 2), .epollWait [.client 5], .nextEvent,
    .recv 4096, .net (.finish 0), .net (.deliverFin 0), .recv 4096]

/-- It sends `hi` and closes before the server looks. -/
def closeAtOnce : List EpollServer.Action :=
  connectOne ++ [.net (.send 0 [104, 105]), .net (.finish 0), .net (.deliver 0 2),
    .net (.deliverFin 0), .epollWait [.client 5], .nextEvent]

theorem servers_write_streams_iff_read :
    ∃ s, EpollServer.machine.Run EpollServer.start readThenClose s
        [.sent 0 [104, 105], .output 0 [104, 105], .finished 0, .closed 0] ∧
      Complete [.sent 0 [104, 105], .output 0 [104, 105], .finished 0, .closed 0] := by
  obtain ⟨s, hrun⟩ : ∃ s, EpollServer.machine.Run EpollServer.start readThenClose s
      [.sent 0 [104, 105], .output 0 [104, 105], .finished 0, .closed 0] :=
    Machine.run_of_trace (by decide +kernel)
  exact ⟨s, hrun, ((servers_write_streams_iff 3 _).1 _ _ hrun).mpr (by decide +kernel)⟩

/-- Data and hang-up come in one event, and the data is never read. -/
theorem hang_up_drops_data :
    ∃ s, EpollServer.machine.Run EpollServer.start closeAtOnce s
        [.sent 0 [104, 105], .finished 0, .closed 0] ∧
      ¬ Complete [.sent 0 [104, 105], .finished 0, .closed 0] := by
  obtain ⟨s, hrun⟩ : ∃ s, EpollServer.machine.Run EpollServer.start closeAtOnce s
      [.sent 0 [104, 105], .finished 0, .closed 0] :=
    Machine.run_of_trace (by decide +kernel)
  refine ⟨s, hrun, ?_⟩
  intro h
  exact absurd (h.whole [.sent 0 [104, 105], .finished 0] _ [] rfl 0 rfl).1 (by decide)

end CppCodes.Guarantees.StreamOutput
