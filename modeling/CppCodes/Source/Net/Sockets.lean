import CppCodes.Library.Machine
import Mathlib.Logic.Function.Basic

/-!
# Connections as the two servers see them

Source: net/epoll/server.cpp:61-73 and 121-184, net/select/server.cpp:79-128. The
network delivers what a client sends in order and the end of its stream after it,
in pieces and at times of its own; connections do not fail. A connection keeps its
number for life, while the descriptor it is accepted under is any number that is
free.

Calls of the servers that fail for other reasons than that they would block are left
out, and so are the messages about connections.
-/

set_option autoImplicit false

namespace CppCodes.Source.Net

open Library

/-- What has been sent and not delivered, whether the client has closed its side, what
has been delivered and not read, and whether the end of the stream has arrived. -/
structure Conn where
  inFlight : List UInt8
  finished : Bool
  queue : List UInt8
  fin : Bool

def Conn.fresh : Conn := ⟨[], false, [], false⟩

/-- A read on the connection does not block. -/
def Conn.readable (c : Conn) : Bool := c.queue ≠ [] || c.fin

/-- The connections, those not accepted yet, and the open descriptors. -/
structure Sockets where
  conns : Nat → Conn
  connected : List Nat
  backlog : List Nat
  fds : Nat → Option Nat

inductive NetAction where
  | connect (id : Nat)
  | send (id : Nat) (data : List UInt8)
  | finish (id : Nat)
  | deliver (id n : Nat)
  | deliverFin (id : Nat)

inductive Event where
  | sent (id : Nat) (data : List UInt8)
  | finished (id : Nat)
  | output (id : Nat) (data : List UInt8)
  | closed (id : Nat)
  | undefined
  deriving DecidableEq

namespace Sockets

def empty : Sockets := ⟨fun _ => .fresh, [], [], fun _ => none⟩

def set (s : Sockets) (id : Nat) (c : Conn) : Sockets :=
  { s with conns := Function.update s.conns id c }

/-- What clients and network do. -/
def act (s : Sockets) : NetAction → Option (Sockets × List Event)
  | .connect id =>
      if id ∈ s.connected then none
      else some ({ s with connected := id :: s.connected, backlog := s.backlog ++ [id] }, [])
  | .send id data =>
      let c := s.conns id
      if id ∈ s.connected ∧ c.finished = false then
        some (s.set id { c with inFlight := c.inFlight ++ data }, [.sent id data])
      else none
  | .finish id =>
      let c := s.conns id
      if id ∈ s.connected ∧ c.finished = false then
        some (s.set id { c with finished := true }, [.finished id])
      else none
  | .deliver id n =>
      let c := s.conns id
      some (s.set id { c with inFlight := c.inFlight.drop n,
                              queue := c.queue ++ c.inFlight.take n }, [])
  | .deliverFin id =>
      let c := s.conns id
      if c.finished = true ∧ c.inFlight = [] then some (s.set id { c with fin := true }, [])
      else none

/-- `accept` returns the oldest connection under a free descriptor. -/
def accept (s : Sockets) (fd : Nat) : Option Sockets :=
  match s.backlog, s.fds fd with
  | id :: rest, none => some { s with backlog := rest, fds := Function.update s.fds fd (some id) }
  | _, _ => none

/-- `close(fd)` -/
def close (s : Sockets) (fd : Nat) : Sockets × List Event :=
  match s.fds fd with
  | none => (s, [])
  | some id => ({ s with fds := Function.update s.fds fd none }, [.closed id])

/-- Up to `n` octets are read and written to standard output. -/
def read (s : Sockets) (id n : Nat) : Sockets × List Event :=
  let c := s.conns id
  (s.set id { c with queue := c.queue.drop n }, [.output id (c.queue.take n)])

end Sockets

/-- `std::array<char, 4096> buffer` -/
def bufferSize : Nat := 4096

/-! ## What an observer sees -/

def sentOf (id : Nat) : Event → Option (List UInt8)
  | .sent id' data => if id' = id then some data else none
  | _ => none

def outputOf (id : Nat) : Event → Option (List UInt8)
  | .output id' data => if id' = id then some data else none
  | _ => none

/-- Everything the client has sent. -/
def sent (id : Nat) (trace : List Event) : List UInt8 := (trace.filterMap (sentOf id)).flatten

/-- Everything of the client's that the server has written. -/
def output (id : Nat) (trace : List Event) : List UInt8 := (trace.filterMap (outputOf id)).flatten

end CppCodes.Source.Net
