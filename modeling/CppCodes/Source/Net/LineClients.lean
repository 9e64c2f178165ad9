import CppCodes.Library.LineInput
import CppCodes.Source.Net.Sockets

/-!
# The clients that send lines

Source: net/select/client.cpp:16-31 and 80-92, net/epoll/client.cpp:18-33 and 90-141. Both
read lines from standard input and send each with a line feed; the second one first waits
for an event of its input or of the socket. `step` is a call of one client and says what it
does to the network. `std::getline` blocks until a line has ended or the input has.

Setting up is one step, and so is the end of a process that has thrown, which closes its
socket. The events that `epoll_wait` returns are left open.
-/

set_option autoImplicit false

namespace CppCodes.Source.Net.LineClients

open Library

abbrev Bytes := List UInt8

inductive Kind where
  | select
  | epoll
  deriving DecidableEq

/-- An event of standard input, with `EPOLLIN` or not, or of the socket. -/
inductive Ready where
  | stdin (readable : Bool)
  | sock
  deriving DecidableEq

/-- Where `main` stands: before its connection; in `epoll_wait`; before the next of the
events it returned; in `std::getline`; in `send_all`; behind the loop; or thrown. -/
inductive Pc where
  | connecting
  | waiting
  | handling (events : List Ready)
  | prompting (events : List Ready)
  | sending (data : Bytes) (totalSent : Nat) (events : List Ready)
  | closed
  | failed
  deriving DecidableEq

/-- What has been typed and not read, and whether more may come. -/
structure Client where
  input : Bytes := []
  ended : Bool := false
  pc : Pc := .connecting
  deriving DecidableEq

inductive Action where
  | type (data : Bytes)
  | endInput
  | connect
  | connectFails
  | epollWait (events : List Ready)
  | epollFails
  | nextEvent
  | getline
  | send (n : Nat)
  | sendInterrupted
  | sendFails
  deriving DecidableEq

/-- What is seen of a client besides the network: what it has typed, and that it ends with
something unsent. -/
inductive Note where
  | typed (data : Bytes)
  | gaveUp
  deriving DecidableEq

def lineFeed : UInt8 := 10

/-- `"exit"` -/
def exitLine : Bytes := [101, 120, 105, 116]

/-- `std::vector<epoll_event> events(4)` -/
def maxEvents : Nat := 4

/-- The `while` of the first client, and of the second one within its `for`. -/
def nextTurn : Kind → List Ready → Pc
  | .select, events => .prompting events
  | .epoll, events => .handling events

/-- Behind the connection. -/
def begun : Kind → Pc
  | .select => .prompting []
  | .epoll => .waiting

structure Outcome where
  client : Client
  net : Option NetAction := none
  notes : List Note := []

/-- The socket is closed, with nothing left to send or with something. -/
def leave (id : Nat) (c : Client) : Outcome :=
  { client := { c with pc := .closed }, net := some (.finish id) }

def giveUp (id : Nat) (c : Client) (pc : Pc) : Outcome :=
  { client := { c with pc := pc }, net := some (.finish id), notes := [.gaveUp] }

def step (kind : Kind) (id : Nat) (c : Client) : Action → Option Outcome
  | .type data =>
      if c.ended then none
      else some { client := { c with input := c.input ++ data }, notes := [.typed data] }
  | .endInput => some { client := { c with ended := true } }
  | .connect =>
      match c.pc with
      | .connecting => some { client := { c with pc := begun kind }, net := some (.connect id) }
      | _ => none
  | .connectFails =>
      match c.pc with
      | .connecting => some { client := { c with pc := .failed }, notes := [.gaveUp] }
      | _ => none
  | .epollWait events =>
      match c.pc with
      | .waiting =>
          if events.length ≤ maxEvents then some { client := { c with pc := .handling events } }
          else none
      | _ => none
  | .epollFails =>
      match c.pc with
      | .waiting => some (giveUp id c .failed)
      | _ => none
  | .nextEvent =>
      match c.pc with
      | .handling [] => some { client := { c with pc := .waiting } }
      | .handling (.stdin readable :: events) =>
          some { client := { c with pc := if readable then .prompting events else .handling events } }
      | .handling (.sock :: _) => some (giveUp id c .closed)
      | _ => none
  | .getline =>
      match c.pc with
      | .prompting events =>
          if lineFeed ∈ c.input ∨ c.ended = true then
            match LineInput.getline lineFeed c.input with
            | none => some (leave id c)
            | some (line, rest) =>
                if line = exitLine then some (leave id { c with input := rest })
                else some { client := { c with
                  input := rest
                  pc := .sending (line ++ [lineFeed]) 0 events } }
          else none
      | _ => none
  | .send n =>
      match c.pc with
      | .sending data totalSent events =>
          if 0 < n ∧ n ≤ data.length - totalSent then
            some {
              client := { c with
                pc :=
                  if totalSent + n < data.length then .sending data (totalSent + n) events
                  else nextTurn kind events }
              net := some (.send id ((data.drop totalSent).take n)) }
          else none
      | _ => none
  | .sendInterrupted =>
      match c.pc with
      | .sending .. => some { client := c }
      | _ => none
  | .sendFails =>
      match c.pc with
      | .sending .. => some (giveUp id c .failed)
      | _ => none

end CppCodes.Source.Net.LineClients
