import CppCodes.Source.Net.EpollServer
import CppCodes.Source.Net.IoUringServer
import CppCodes.Source.Net.LineClients
import CppCodes.Source.Net.SelectServer

/-!
# Clients that send lines to one of the servers

The three servers differ in how they wait, and share what clients and network do to them.
`NetServer` is a server seen from there: which of its steps are not a client's, and which
of its events are about the connections. `machine` runs a server with any number of clients
in front of it, each of either kind.
-/

set_option autoImplicit false

namespace CppCodes.System.LineNetwork

open Library
open Source.Net
open Source.Net.LineClients (Kind Client Note)

/-- What a client's call shows of the connection. -/
def shown : NetAction → List Event
  | .send id data => [.sent id data]
  | .finish id => [.finished id]
  | _ => []

/-- The event is about what a client does. -/
def fromClient : Event → Bool
  | .sent .. | .finished _ => true
  | _ => false

structure NetServer where
  State : Type
  Action : Type
  Seen : Type
  machine : Machine State Action Seen
  start : State
  net : NetAction → Action
  own : Action → Bool
  view : Seen → Option Event
  net_seen : ∀ {s t : State} {a : NetAction} {seen : List Seen},
    machine.step s (net a) = some (t, seen) → seen.filterMap view = shown a
  own_seen : ∀ {s t : State} {a : Action} {seen : List Seen}, own a = true →
    machine.step s a = some (t, seen) → ∀ e ∈ seen.filterMap view, fromClient e = false

/-! ## The three servers -/

/-- Delivering is up to the network, not to a client. -/
def delivers : NetAction → Bool
  | .deliver .. | .deliverFin _ => true
  | _ => false

theorem act_shown {s t : Sockets} {a : NetAction} {seen : List Event}
    (h : s.act a = some (t, seen)) : seen = shown a := by
  cases a <;> simp only [Sockets.act] at h
  case connect id =>
    split at h
    · cases h
    · cases h
      rfl
  case send id data =>
    split at h
    · cases h
      rfl
    · cases h
  case finish id =>
    split at h
    · cases h
      rfl
    · cases h
  case deliver id n =>
    cases h
    rfl
  case deliverFin id =>
    split at h
    · cases h
      rfl
    · cases h

theorem shown_delivers {a : NetAction} (h : delivers a = true) : shown a = [] := by
  cases a <;> first | rfl | cases h

theorem close_quiet {s : Sockets} {fd : Nat} {e : Event} (h : e ∈ (s.close fd).2) :
    fromClient e = false := by
  unfold Sockets.close at h
  split at h
  · simp at h
  · rw [List.mem_singleton.mp h]
    rfl

theorem read_quiet {s : Sockets} {id n : Nat} {e : Event} (h : e ∈ (s.read id n).2) :
    fromClient e = false := by
  rw [List.mem_singleton.mp h]
  rfl

namespace Select

open SelectServer

def own : SelectServer.Action → Bool
  | .net a => delivers a
  | _ => true

theorem own_quiet {s t : Server} {a : SelectServer.Action} {seen : List Event} (hown : own a = true)
    (h : SelectServer.step s a = some (t, seen)) : ∀ e ∈ seen, fromClient e = false := by
  intro e he
  cases a with
  | net a =>
    obtain ⟨⟨net, es⟩, hact, heq⟩ := Option.map_eq_some_iff.mp h
    cases heq
    rw [act_shown hact, shown_delivers hown] at he
    cases he
  | select readSet =>
    simp only [SelectServer.step] at h
    split at h
    · split at h
      · cases h
        cases he
      · cases h
    · cases h
  | scan =>
    simp only [SelectServer.step] at h
    split at h
    · split at h
      · split at h
        · cases h
        · cases h
          cases he
      · cases h
        cases he
    · cases h
  | accept newFd =>
    simp only [SelectServer.step] at h
    split at h
    · split at h
      · obtain ⟨net, -, heq⟩ := Option.map_eq_some_iff.mp h
        cases heq
        split at he
        · cases he
        · rw [List.mem_singleton.mp he]
          rfl
      · cases h
    · cases h
  | acceptFails =>
    simp only [SelectServer.step] at h
    split at h
    · split at h
      · cases h
        cases he
      · cases h
    · cases h
  | recv n =>
    simp only [SelectServer.step] at h
    split at h
    · split at h
      · split at h
        · cases h
          cases he
        · split at h
          · split at h
            · cases h
              exact close_quiet he
            · cases h
          · split at h
            · cases h
              exact read_quiet he
            · cases h
      · cases h
    · cases h

def server (listenFd : Nat) : NetServer where
  State := Server
  Action := SelectServer.Action
  Seen := Event
  machine := SelectServer.machine
  start := SelectServer.start listenFd
  net := .net
  own := own
  view := some
  net_seen h := by
    obtain ⟨⟨net, es⟩, hact, heq⟩ := Option.map_eq_some_iff.mp h
    cases heq
    rw [List.filterMap_some]
    exact act_shown hact
  own_seen hown h e he := by
    rw [List.filterMap_some] at he
    exact own_quiet hown h e he

end Select

namespace Epoll

open EpollServer

def own : EpollServer.Action → Bool
  | .net a => delivers a
  | _ => true

theorem own_quiet {s t : Server} {a : EpollServer.Action} {seen : List Event} (hown : own a = true)
    (h : EpollServer.step s a = some (t, seen)) : ∀ e ∈ seen, fromClient e = false := by
  intro e he
  cases a with
  | net a =>
    obtain ⟨⟨net, es⟩, hact, heq⟩ := Option.map_eq_some_iff.mp h
    cases heq
    rw [act_shown hact, shown_delivers hown] at he
    cases he
  | epollWait ready =>
    simp only [EpollServer.step] at h
    split at h
    · split at h
      · cases h
        cases he
      · cases h
    · cases h
  | nextEvent =>
    simp only [EpollServer.step] at h
    split at h
    · cases h
      cases he
    · cases h
      cases he
    · split at h
      · cases h
        exact close_quiet he
      · cases h
        cases he
    · cases h
  | accept fd =>
    simp only [EpollServer.step] at h
    split at h
    · obtain ⟨net, -, heq⟩ := Option.map_eq_some_iff.mp h
      cases heq
      cases he
    · cases h
  | acceptEnds =>
    simp only [EpollServer.step] at h
    split at h
    · cases h
      cases he
    · cases h
  | recv n =>
    simp only [EpollServer.step] at h
    split at h
    · split at h
      · cases h
        cases he
      · split at h
        · split at h
          · cases h
            exact close_quiet he
          · cases h
            cases he
        · split at h
          · cases h
            exact read_quiet he
          · cases h
    · cases h

def server : NetServer where
  State := Server
  Action := EpollServer.Action
  Seen := Event
  machine := EpollServer.machine
  start := EpollServer.start
  net := .net
  own := own
  view := some
  net_seen h := by
    obtain ⟨⟨net, es⟩, hact, heq⟩ := Option.map_eq_some_iff.mp h
    cases heq
    rw [List.filterMap_some]
    exact act_shown hact
  own_seen hown h e he := by
    rw [List.filterMap_some] at he
    exact own_quiet hown h e he

end Epoll

namespace IoUring

open IoUringServer

def own : IoUringServer.Action → Bool
  | .net a => delivers a
  | _ => true

theorem filterMap_net (es : List Event) : (es.map Seen.net).filterMap networkOf = es := by
  rw [List.filterMap_map]
  exact List.filterMap_some

theorem perform_quiet {s : Server} {p : Ptr} {req : IoRequest} {op : Sqe} {outcome : Outcome}
    {r : Sockets × IoRequest × Int × List Seen} (h : perform s p req op outcome = some r) :
    r.2.2.2.filterMap networkOf = [] := by
  unfold perform at h
  split at h
  · split at h
    · cases h
    · obtain ⟨net, -, rfl⟩ := Option.map_eq_some_iff.mp h
      rfl
  · split at h
    · cases h
    · dsimp only at h
      split at h
      · cases h
        rfl
      · cases h
  · split at h
    · cases h
    · dsimp only at h
      split at h
      · cases h
        rfl
      · cases h
  · cases h
    rfl
  · cases h

theorem handle_quiet {s : Server} {p : Ptr} {req : IoRequest} {res : Int} {e : Event}
    (he : e ∈ (handle s p req res).2.filterMap networkOf) : fromClient e = false := by
  unfold handle at he
  split at he
  · split at he <;> cases he
  · split at he
    · split at he
      · rw [List.mem_singleton.mp he]
        rfl
      · rw [List.mem_singleton.mp he]
        rfl
    · rw [List.filterMap_append, filterMap_net] at he
      rcases List.mem_append.mp he with hclose | hfreed
      · exact close_quiet hclose
      · cases hfreed

theorem own_quiet {s t : Server} {a : IoUringServer.Action} {seen : List Seen} (hown : own a = true)
    (h : IoUringServer.step s a = some (t, seen)) :
    ∀ e ∈ seen.filterMap networkOf, fromClient e = false := by
  intro e he
  cases a with
  | net a =>
    obtain ⟨⟨net, es⟩, hact, heq⟩ := Option.map_eq_some_iff.mp h
    cases heq
    rw [filterMap_net, act_shown hact, shown_delivers hown] at he
    cases he
  | queueAccept q =>
    simp only [IoUringServer.step] at h
    split at h
    · cases h
      cases he
    · cases h
      cases he
    · cases h
  | submitAndWait =>
    simp only [IoUringServer.step] at h
    split at h
    · cases h
      cases he
    · cases h
  | complete i outcome =>
    simp only [IoUringServer.step] at h
    split at h
    · cases h
    · split at h
      · cases h
      · split at h
        · cases h
          rw [List.mem_singleton.mp he]
          rfl
        · obtain ⟨r, hperform, heq⟩ := Option.map_eq_some_iff.mp h
          cases heq
          rw [perform_quiet hperform] at he
          cases he
  | peek =>
    simp only [IoUringServer.step] at h
    split at h
    · split at h
      · cases h
        rw [List.mem_singleton.mp he]
        rfl
      · have hseen := congrArg Prod.snd (Option.some.inj h)
        rw [← show _ = seen from hseen] at he
        exact handle_quiet he
    · cases h
  | peekNone =>
    simp only [IoUringServer.step] at h
    split at h
    · cases h
      cases he
    · cases h
  | queueRead q =>
    simp only [IoUringServer.step] at h
    split at h
    · cases h
      cases he
    · cases h
  | deleteRequest =>
    simp only [IoUringServer.step] at h
    split at h
    · split at h
      · cases h
        rw [List.mem_singleton.mp he]
        rfl
      · cases h
        cases he
    · cases h
  | requeue =>
    simp only [IoUringServer.step] at h
    split at h
    · split at h
      · cases h
        rw [List.mem_singleton.mp he]
        rfl
      · cases h
        cases he
    · cases h
  | throws =>
    simp only [IoUringServer.step] at h
    split at h <;> cases h <;> cases he

def server (listenFd : Nat) : NetServer where
  State := Server
  Action := IoUringServer.Action
  Seen := IoUringServer.Seen
  machine := IoUringServer.machine
  start := IoUringServer.start listenFd
  net := .net
  own := own
  view := networkOf
  net_seen h := by
    obtain ⟨⟨net, es⟩, hact, heq⟩ := Option.map_eq_some_iff.mp h
    cases heq
    rw [filterMap_net]
    exact act_shown hact
  own_seen := own_quiet

end IoUring

/-- The servers of the three directories; two of them know the descriptor they listen on. -/
inductive ServerKind where
  | select (listenFd : Nat)
  | epoll
  | ioUring (listenFd : Nat)

def server : ServerKind → NetServer
  | .select listenFd => Select.server listenFd
  | .epoll => Epoll.server
  | .ioUring listenFd => IoUring.server listenFd

/-! ## The whole -/

section Whole

variable (S : NetServer) (kinds : Nat → Kind)

structure State where
  server : S.State
  clients : Nat → Client

inductive Action where
  | server (a : S.Action)
  | client (id : Nat) (a : LineClients.Action)

inductive Seen where
  | server (e : S.Seen)
  | note (id : Nat) (n : Note)

variable {S}

/-- What a client's step does to the server. -/
def serve (s : State S) : Option NetAction → Option (S.State × List S.Seen)
  | none => some (s.server, [])
  | some a => S.machine.step s.server (S.net a)

def step (s : State S) : Action S → Option (State S × List (Seen S))
  | .server a =>
      if S.own a then
        (S.machine.step s.server a).map fun r => ({ s with server := r.1 }, r.2.map .server)
      else none
  | .client id a =>
      match LineClients.step (kinds id) id (s.clients id) a with
      | none => none
      | some o =>
          (serve s o.net).map fun r =>
            (⟨r.1, Function.update s.clients id o.client⟩, r.2.map .server ++ o.notes.map (.note id))

def machine : Machine (State S) (Action S) (Seen S) := ⟨step kinds⟩

variable (S) in
def start : State S := ⟨S.start, fun _ => {}⟩

/-- What is seen of the connections. -/
def network (trace : List (Seen S)) : List Event :=
  trace.filterMap fun
    | .server e => S.view e
    | .note .. => none

/-- What is seen of a client besides. -/
def notes (id : Nat) (trace : List (Seen S)) : List Note :=
  trace.filterMap fun
    | .note id' n => if id' = id then some n else none
    | .server _ => none

/-- What has been typed at a client. -/
def typed (id : Nat) (trace : List (Seen S)) : List UInt8 :=
  (notes id trace).flatMap fun
    | .typed data => data
    | .gaveUp => []

/-- The client has ended with something unsent. -/
def GaveUp (id : Nat) (trace : List (Seen S)) : Prop := .gaveUp ∈ notes id trace

instance (id : Nat) (trace : List (Seen S)) : Decidable (GaveUp id trace) :=
  inferInstanceAs (Decidable (_ ∈ _))

end Whole

end CppCodes.System.LineNetwork
