import CppCodes.Library.Machine
import CppCodes.Library.RequestRing
import Mathlib.Data.List.DropRight
import Mathlib.Logic.Function.Basic

/-!
# The io_uring client

Source: net/iouring/client.cpp:20-25, 60-82 and 120-184. One request object reads
standard input and sends what it read, in turns, with the same buffer; another one
polls the socket. `machine` runs the loop of `main` one call of the ring at a time.
The kernel answers what it has been given in any order, and its side of a read or a
send happens when it answers: the buffer is filled, or octets of it are accepted.

Failures of `io_uring_submit_and_wait` end the program and are left out, and so is
the null user data that no request has.
-/

set_option autoImplicit false

namespace CppCodes.Source.Net.IoUringClient

open Library

abbrev Bytes := List UInt8

/-- `read_req` and `poll_req`. -/
inductive Req where
  | readReq
  | pollReq
  deriving DecidableEq

inductive ReqType where
  | readInput
  | sendSocket
  | pollSocket
  deriving DecidableEq

structure IoRequest where
  type : ReqType
  buffer : Bytes
  length : Nat

inductive Sqe where
  | read (size : Nat)
  | send (len : Nat)
  | poll
  deriving DecidableEq

/-- Where `main` stands: before `io_uring_submit_and_wait`, in the loop over the
completions, or after both loops. -/
inductive Phase where
  | submitting
  | draining
  | finished
  deriving DecidableEq

structure Client where
  ring : RequestRing Req Sqe Int
  requests : Req → Option IoRequest
  running : Bool
  phase : Phase

/-- What the kernel makes of an operation. -/
inductive Outcome where
  | bytes (data : Bytes)
  | sent (n : Nat)
  | ready (mask : Nat)
  | error (errno : Nat)

inductive Action where
  | submitAndWait
  | complete (i : Nat) (outcome : Outcome)
  | peek
  | peekNone

inductive Event where
  | chunk (data : Bytes)
  | accepted (data : Bytes)
  | submitRead
  | useAfterFree
  deriving DecidableEq

def bufferSize : Nat := 4096

/-- `IoRequest{}` -/
def IoRequest.fresh : IoRequest := ⟨.readInput, List.replicate bufferSize 0, 0⟩

def setRequest (c : Client) (w : Req) (req : Option IoRequest) : Client :=
  { c with requests := Function.update c.requests w req }

def submitStdinRead (c : Client) (w : Req) (req : IoRequest) : Client :=
  { setRequest c w (some { req with type := .readInput }) with
    ring := c.ring.prepare w (.read bufferSize) }

def submitSend (c : Client) (w : Req) (req : IoRequest) : Client :=
  { setRequest c w (some { req with type := .sendSocket }) with
    ring := c.ring.prepare w (.send req.length) }

def submitPoll (c : Client) (w : Req) (req : IoRequest) : Client :=
  { setRequest c w (some { req with type := .pollSocket }) with ring := c.ring.prepare w .poll }

/-- `running = false; delete req;` -/
def stop (c : Client) (w : Req) : Client := { setRequest c w none with running := false }

section Requests

variable {c : Client} {w : Req} {req : IoRequest} {opt : Option IoRequest}

@[simp] theorem setRequest_requests :
    (setRequest c w opt).requests = Function.update c.requests w opt := rfl

@[simp] theorem stop_requests : (stop c w).requests = Function.update c.requests w none := rfl

@[simp] theorem submitStdinRead_requests : (submitStdinRead c w req).requests =
    Function.update c.requests w (some { req with type := .readInput }) := rfl

@[simp] theorem submitSend_requests : (submitSend c w req).requests =
    Function.update c.requests w (some { req with type := .sendSocket }) := rfl

end Requests

/-- The loop that removes `'\\n'` and `'\\r'` from the end of the view. -/
def stripLineEnd (view : Bytes) : Bytes := view.rdropWhile fun b => b == 10 || b == 13

/-- `view == "exit"` -/
def isExit (chunk : Bytes) : Bool := stripLineEnd chunk == [101, 120, 105, 116]

/-- The `switch` over the type of the request whose completion was taken. -/
def handle (c : Client) (w : Req) (req : IoRequest) (res : Int) : Client × List Event :=
  match req.type with
  | .readInput =>
      if res ≤ 0 then (stop c w, [])
      else
        let req := { req with length := res.toNat }
        if isExit (req.buffer.take req.length) then (stop c w, [])
        else (submitSend c w req, [])
  | .sendSocket =>
      if res < 0 then (stop c w, []) else (submitStdinRead c w req, [.submitRead])
  | .pollSocket => (stop c w, [])

/-- The kernel's part of an operation on the request `w`: the request afterwards, the
result and what can be seen of it. -/
def perform (req : IoRequest) : Sqe → Outcome → Option (IoRequest × Int × List Event)
  | .read size, .bytes data =>
      if data.length ≤ size then
        some ({ req with buffer := data ++ req.buffer.drop data.length }, data.length, [.chunk data])
      else none
  | .send len, .sent n =>
      if n ≤ len then some (req, n, [.accepted ((req.buffer.take len).take n)]) else none
  | .poll, .ready mask => some (req, mask, [])
  | _, .error errno => some (req, -(errno + 1), [])
  | _, _ => none

/-- The state after the two submissions before the loop. -/
def start : Client :=
  let c : Client := ⟨RequestRing.empty, fun _ => none, true, .submitting⟩
  submitPoll (submitStdinRead c .readReq .fresh) .pollReq .fresh

def step (c : Client) : Action → Option (Client × List Event)
  | .submitAndWait =>
      if c.phase = .submitting then
        some ({ c with ring := c.ring.submit, phase := .draining }, [])
      else none
  | .complete i outcome =>
      match c.ring.inFlight[i]? with
      | none => none
      | some (w, op) =>
          match c.requests w with
          | none => some (c, [.useAfterFree])
          | some req =>
              match perform req op outcome with
              | none => none
              | some (req, res, seen) =>
                  some ({ setRequest c w (some req) with ring := c.ring.complete i w res }, seen)
  | .peek =>
      match c.phase, c.ring.completed with
      | .draining, (w, res) :: _ =>
          match c.requests w with
          | none => some (c, [.useAfterFree])
          | some req => some (handle { c with ring := c.ring.take } w req res)
      | _, _ => none
  | .peekNone =>
      match c.phase, c.ring.completed with
      | .draining, [] =>
          some ({ c with phase := if c.running then .submitting else .finished }, [])
      | _, _ => none

def machine : Machine Client Action Event := ⟨step⟩

/-! ## What an observer sees -/

def acceptedOf : Event → Option Bytes
  | .accepted data => some data
  | _ => none

def chunkOf : Event → Option Bytes
  | .chunk data => some data
  | _ => none

/-- The octets the socket has accepted. -/
def accepted (trace : List Event) : Bytes := (trace.filterMap acceptedOf).flatten

/-- The chunks read from standard input. -/
def chunks (trace : List Event) : List Bytes := trace.filterMap chunkOf

/-- The chunks before one that says `exit`. -/
def beforeExit (cs : List Bytes) : List Bytes := cs.takeWhile fun chunk => !isExit chunk

end CppCodes.Source.Net.IoUringClient
