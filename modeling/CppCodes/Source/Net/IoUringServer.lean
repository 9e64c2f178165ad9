import CppCodes.Library.AllocTrace
import CppCodes.Library.Machine
import CppCodes.Library.RequestRing
import CppCodes.Source.Net.Sockets

/-!
# The io_uring server

Source: net/iouring/server.cpp:19-25 and 68-195. A request object lives on the heap
from `new` to `delete`, and the ring knows it by its address: the user data of its
operation. `machine` runs `main` from the first `queue_accept` on, one call at a time.
The kernel answers what it has been given in any order, and its side of an operation
happens when it answers: a connection is accepted under a free descriptor, or octets
are moved from the connection to the buffer of the request. An address that has been
freed may be handed out by the next `new`.

A call that fails throws, and `main` ends. The messages about connections are left out,
and so is the null user data that no request has.
-/

set_option autoImplicit false

namespace CppCodes.Source.Net.IoUringServer

open Library

abbrev Ptr := Nat

inductive ReqType where
  | accept
  | read
  deriving DecidableEq

structure IoRequest where
  type : ReqType
  fd : Nat
  buffer : List UInt8

/-- `IoRequest{}` with its type and descriptor set. -/
def IoRequest.fresh (type : ReqType) (fd : Nat) : IoRequest := ⟨type, fd, List.replicate bufferSize 0⟩

/-! The struct in memory: `type`, `fd`, `addr`, `addr_len`, `buffer`. -/

def addrOffset : Nat := 8

def addrSize : Nat := 20

def bufferOffset : Nat := 28

def requestSize : Nat := bufferOffset + bufferSize

inductive Sqe where
  | accept (fd : Nat)
  | recv (fd size : Nat)
  deriving DecidableEq

/-- Where `main` stands: before the first `queue_accept`; before
`io_uring_submit_and_wait`; in the loop over the completions; in it, with a new
connection; with the request of an `accept` to delete; before the next
`queue_accept`; with octets written and the read to queue again; or at its end. -/
inductive Phase where
  | starting
  | submitting
  | draining
  | accepted (p : Ptr) (clientFd : Nat)
  | rearming (p : Ptr)
  | arming
  | received (p : Ptr)
  | stopped
  deriving DecidableEq

structure Server where
  net : Sockets
  listenFd : Nat
  ring : RequestRing Ptr Sqe Int
  requests : Ptr → Option IoRequest
  phase : Phase

/-- What the kernel makes of an operation. -/
inductive Outcome where
  | accepted (fd : Nat)
  | received (n : Nat)
  | ended
  | failed (errno : Nat)

/-- A `new` names the address that it gets. -/
inductive Action where
  | net (a : NetAction)
  | queueAccept (q : Ptr)
  | submitAndWait
  | complete (i : Nat) (outcome : Outcome)
  | peek
  | peekNone
  | queueRead (q : Ptr)
  | deleteRequest
  | requeue
  | throws

inductive Seen where
  | net (e : Event)
  | memory (e : AllocTrace.Event Ptr)
  deriving DecidableEq

/-- `io_uring_queue_init(256, &ring, 0)` -/
def sqEntries : Nat := 256

/-- A full submission queue is submitted first. -/
def getSqe (ring : RequestRing Ptr Sqe Int) : RequestRing Ptr Sqe Int :=
  if ring.prepared.length < sqEntries then ring else ring.submit

def setRequest (s : Server) (p : Ptr) (req : Option IoRequest) : Server :=
  { s with requests := Function.update s.requests p req }

def queueAccept (s : Server) (q : Ptr) : Server :=
  { setRequest s q (some (.fresh .accept s.listenFd)) with
    ring := (getSqe s.ring).prepare q (.accept s.listenFd) }

def queueRead (s : Server) (clientFd : Nat) (target : Ptr) (req : IoRequest) : Server :=
  { setRequest s target (some { req with type := .read, fd := clientFd }) with
    ring := (getSqe s.ring).prepare target (.recv clientFd bufferSize) }

/-- The kernel's part of an operation on the request at `p`: the sockets and the
request afterwards, the result, and the part of the request written to. -/
def perform (s : Server) (p : Ptr) (req : IoRequest) :
    Sqe → Outcome → Option (Sockets × IoRequest × Int × List Seen)
  | .accept _, .accepted fd =>
      if fd = s.listenFd then none
      else (s.net.accept fd).map fun net =>
        (net, req, fd, [.memory (.written p addrOffset addrSize)])
  | .recv fd size, .received n =>
      match s.net.fds fd with
      | none => none
      | some id =>
          let c := s.net.conns id
          let data := c.queue.take n
          if c.queue ≠ [] ∧ 0 < n ∧ n ≤ size then
            some (s.net.set id { c with queue := c.queue.drop n },
              { req with buffer := data ++ req.buffer.drop data.length },
              data.length, [.memory (.written p bufferOffset data.length)])
          else none
  | .recv fd _, .ended =>
      match s.net.fds fd with
      | none => none
      | some id =>
          let c := s.net.conns id
          if c.queue = [] ∧ c.fin = true then some (s.net, req, 0, []) else none
  | _, .failed errno => some (s.net, req, -(errno + 1), [])
  | _, _ => none

/-- The completion of the request at `p`, taken off the ring. -/
def handle (s : Server) (p : Ptr) (req : IoRequest) (res : Int) : Server × List Seen :=
  match req.type with
  | .accept =>
      if 0 ≤ res then ({ s with phase := .accepted p res.toNat }, [])
      else ({ s with phase := .rearming p }, [])
  | .read =>
      if 0 < res then
        ({ s with phase := .received p },
          -- the octets are those of the connection that the descriptor stands for
          match s.net.fds req.fd with
          | none => [.net .undefined]
          | some id => [.net (.output id (req.buffer.take res.toNat))])
      else
        let (net, seen) := s.net.close req.fd
        ({ setRequest s p none with net := net }, seen.map Seen.net ++ [.memory (.freed p)])

def start (listenFd : Nat) : Server :=
  ⟨.empty, listenFd, RequestRing.empty, fun _ => none, .starting⟩

def step (s : Server) : Action → Option (Server × List Seen)
  | .net a => (s.net.act a).map fun (net, seen) => ({ s with net := net }, seen.map Seen.net)
  | .queueAccept q =>
      match s.requests q, s.phase with
      | none, .starting =>
          some ({ queueAccept s q with phase := .submitting }, [.memory (.obtained q requestSize)])
      | none, .arming =>
          some ({ queueAccept s q with phase := .draining }, [.memory (.obtained q requestSize)])
      | _, _ => none
  | .submitAndWait =>
      if s.phase = .submitting then
        some ({ s with ring := s.ring.submit, phase := .draining }, [])
      else none
  | .complete i outcome =>
      match s.ring.inFlight[i]? with
      | none => none
      | some (p, op) =>
          if s.phase = .stopped then none
          else match s.requests p with
            | none => some (s, [.net .undefined])
            | some req =>
                (perform s p req op outcome).map fun (net, req, res, seen) =>
                  ({ setRequest s p (some req) with
                      net := net, ring := s.ring.complete i p res }, seen)
  | .peek =>
      match s.phase, s.ring.completed with
      | .draining, (p, res) :: _ =>
          match s.requests p with
          | none => some (s, [.net .undefined])
          | some req => some (handle { s with ring := s.ring.take } p req res)
      | _, _ => none
  | .peekNone =>
      match s.phase, s.ring.completed with
      | .draining, [] => some ({ s with phase := .submitting }, [])
      | _, _ => none
  | .queueRead q =>
      match s.requests q, s.phase with
      | none, .accepted p clientFd =>
          some ({ queueRead s clientFd q (.fresh .read clientFd) with phase := .rearming p },
            [.memory (.obtained q requestSize)])
      | _, _ => none
  | .deleteRequest =>
      match s.phase with
      | .rearming p =>
          match s.requests p with
          | none => some (s, [.net .undefined])
          | some _ => some ({ setRequest s p none with phase := .arming }, [.memory (.freed p)])
      | _ => none
  | .requeue =>
      match s.phase with
      | .received p =>
          match s.requests p with
          | none => some (s, [.net .undefined])
          | some req => some ({ queueRead s req.fd p req with phase := .draining }, [])
      | _ => none
  | .throws =>
      match s.phase with
      | .starting | .submitting | .accepted _ _ | .arming | .received _ =>
          some ({ s with phase := .stopped }, [])
      | _ => none

def machine : Machine Server Action Seen := ⟨step⟩

/-! ## What an observer sees -/

def networkOf : Seen → Option Event
  | .net e => some e
  | .memory _ => none

def memoryOf : Seen → Option (AllocTrace.Event Ptr)
  | .memory e => some e
  | .net _ => none

/-- What clients and server do with the streams. -/
def network (trace : List Seen) : List Event := trace.filterMap networkOf

/-- What is done with the request objects. -/
def memory (trace : List Seen) : List (AllocTrace.Event Ptr) := trace.filterMap memoryOf

end CppCodes.Source.Net.IoUringServer
