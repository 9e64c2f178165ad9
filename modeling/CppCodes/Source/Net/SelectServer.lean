import CppCodes.Source.Net.Sockets

/-!
# The select server

Source: net/select/server.cpp:79-128. `machine` runs the loop of `main` one call at a
time, with clients and network in between. The bits of `read_set` that `select` leaves
are the descriptors `ready`, and the scan goes through the numbers up to `max_fd` while
there are bits left. A read that would block waits for the network, and the bits of a
set go up to `FD_SETSIZE`.
-/

set_option autoImplicit false

namespace CppCodes.Source.Net.SelectServer

open Library

def fdSetSize : Nat := 1024

/-- Where `main` stands: in `select`, or in the scan at `fd` with the bits of
`read_set` and the number `ready` of those not looked at. -/
inductive Phase where
  | waiting
  | scanning (fd : Nat) (readSet : List Nat) (ready : Nat)

structure Server where
  net : Sockets
  listenFd : Nat
  maxFd : Nat
  phase : Phase

inductive Action where
  | net (a : NetAction)
  | select (readSet : List Nat)
  | scan
  | accept (fd : Nat)
  | acceptFails
  | recv (n : Nat)

/-- What `select` may report of a descriptor of `master_set`. -/
def ready (s : Server) (fd : Nat) : Bool :=
  if fd = s.listenFd then s.net.backlog ≠ []
  else match s.net.fds fd with
    | none => false
    | some id => (s.net.conns id).readable

def start (listenFd : Nat) : Server := ⟨.empty, listenFd, listenFd, .waiting⟩

/-- The scan stands at a bit that is set. -/
def atBit (s : Server) (fd : Nat) (readSet : List Nat) (left : Nat) : Bool :=
  decide (fd ≤ s.maxFd) && decide (0 < left) && decide (fd ∈ readSet)

def step (s : Server) : Action → Option (Server × List Event)
  | .net a => (s.net.act a).map fun (net, seen) => ({ s with net := net }, seen)
  | .select readSet =>
      match s.phase with
      | .waiting =>
          if readSet.Nodup ∧ ∀ fd ∈ readSet, ready s fd = true then
            some ({ s with phase := .scanning 0 readSet readSet.length }, [])
          else none
      | _ => none
  | .scan =>
      match s.phase with
      | .scanning fd readSet left =>
          if fd ≤ s.maxFd ∧ 0 < left then
            if fd ∈ readSet then none
            else some ({ s with phase := .scanning (fd + 1) readSet left }, [])
          else some ({ s with phase := .waiting }, [])
      | _ => none
  | .accept newFd =>
      match s.phase with
      | .scanning fd readSet left =>
          if atBit s fd readSet left ∧ fd = s.listenFd ∧ newFd ≠ s.listenFd then
            (s.net.accept newFd).map fun net =>
              (⟨net, s.listenFd, max s.maxFd newFd, .scanning (fd + 1) readSet (left - 1)⟩,
                if newFd < fdSetSize then [] else [.undefined])
          else none
      | _ => none
  | .acceptFails =>
      match s.phase with
      | .scanning fd readSet left =>
          if atBit s fd readSet left ∧ fd = s.listenFd then
            some ({ s with phase := .scanning (fd + 1) readSet (left - 1) }, [])
          else none
      | _ => none
  | .recv n =>
      match s.phase with
      | .scanning fd readSet left =>
          if atBit s fd readSet left ∧ fd ≠ s.listenFd then
            let s := { s with phase := .scanning (fd + 1) readSet (left - 1) }
            match s.net.fds fd with
            | none => some (s, [])
            | some id =>
                let c := s.net.conns id
                if c.queue = [] then
                  if c.fin then
                    let (net, seen) := s.net.close fd
                    some ({ s with net := net }, seen)
                  else none
                else if 0 < n ∧ n ≤ bufferSize then
                  let (net, seen) := s.net.read id n
                  some ({ s with net := net }, seen)
                else none
          else none
      | _ => none

def machine : Machine Server Action Event := ⟨step⟩

end CppCodes.Source.Net.SelectServer
