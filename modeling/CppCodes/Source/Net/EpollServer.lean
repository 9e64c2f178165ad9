import CppCodes.Source.Net.Sockets

/-!
# The epoll server

Source: net/epoll/server.cpp:61-73 and 121-184. `machine` runs the loop of `main` one
call at a time, with clients and network in between. `epoll_wait` reports any of the
descriptors that have something to report, each once and with every condition that
holds of it then.
-/

set_option autoImplicit false

namespace CppCodes.Source.Net.EpollServer

open Library

/-- `listen_fd` or the descriptor of a client. -/
inductive Fd where
  | listener
  | client (fd : Nat)
  deriving DecidableEq

/-- `ev.events & EPOLLIN` and `ev.events & (EPOLLERR | EPOLLRDHUP | EPOLLHUP)`. -/
structure Mask where
  readable : Bool
  hangUp : Bool

/-- Where `main` stands: in `epoll_wait`, before the next of the events it returned, in
the loop around `accept` or in the one around `recv`. -/
inductive Phase where
  | waiting
  | handling (batch : List (Fd × Mask))
  | accepting (batch : List (Fd × Mask))
  | receiving (fd : Nat) (batch : List (Fd × Mask))

structure Server where
  net : Sockets
  phase : Phase

inductive Action where
  | net (a : NetAction)
  | epollWait (ready : List Fd)
  | nextEvent
  | accept (fd : Nat)
  | acceptEnds
  | recv (n : Nat)

/-- The conditions that hold, as `EPOLLIN | EPOLLRDHUP` asks for them. A client that
closes or half-closes raises `EPOLLRDHUP` when the end of its stream arrives. -/
def maskOf (net : Sockets) : Fd → Mask
  | .listener => ⟨net.backlog ≠ [], false⟩
  | .client fd =>
      match net.fds fd with
      | none => ⟨false, false⟩
      | some id => ⟨(net.conns id).readable, (net.conns id).fin⟩

def start : Server := ⟨.empty, .waiting⟩

def step (s : Server) : Action → Option (Server × List Event)
  | .net a => (s.net.act a).map fun (net, seen) => ({ s with net := net }, seen)
  | .epollWait ready =>
      match s.phase with
      | .waiting =>
          if ready.Nodup ∧ ∀ fd ∈ ready, (maskOf s.net fd).readable = true then
            some ({ s with phase := .handling (ready.map fun fd => (fd, maskOf s.net fd)) }, [])
          else none
      | _ => none
  | .nextEvent =>
      match s.phase with
      | .handling [] => some ({ s with phase := .waiting }, [])
      | .handling ((.listener, _) :: batch) => some ({ s with phase := .accepting batch }, [])
      | .handling ((.client fd, mask) :: batch) =>
          if mask.hangUp then
            let (net, seen) := s.net.close fd
            some (⟨net, .handling batch⟩, seen)
          else some ({ s with phase := .receiving fd batch }, [])
      | _ => none
  | .accept fd =>
      match s.phase with
      | .accepting _ => (s.net.accept fd).map fun net => ({ s with net := net }, [])
      | _ => none
  | .acceptEnds =>
      match s.phase with
      | .accepting batch => some ({ s with phase := .handling batch }, [])
      | _ => none
  | .recv n =>
      match s.phase with
      | .receiving fd batch =>
          match s.net.fds fd with
          | none => some ({ s with phase := .handling batch }, [])
          | some id =>
              let c := s.net.conns id
              if c.queue = [] then
                if c.fin then
                  let (net, seen) := s.net.close fd
                  some (⟨net, .handling batch⟩, seen)
                else some ({ s with phase := .handling batch }, [])
              else if 0 < n ∧ n ≤ bufferSize then
                let (net, seen) := s.net.read id n
                some ({ s with net := net }, seen)
              else none
      | _ => none

def machine : Machine Server Action Event := ⟨step⟩

end CppCodes.Source.Net.EpollServer
