import CppCodes.Source.RustCpp.Implementations

/-!
# The messages that are sampled

Source: rust_cpp/src/main.rs:162-253 (`run_once`) and rust_cpp/md.cpp:218-267 (`main`), from
the snapshot to the end of a connection. Both first bridge and then go on in a steady
state, and record a latency for some of the messages. `ws.read` of md.cpp hands out the
data messages only. The stream ends where the socket is closed.
-/

set_option autoImplicit false

namespace CppCodes.Source.RustCpp

variable {F : Type} [LinearOrder F]

inductive Message where
  | text (upd : DepthUpdate)
  | binary (upd : DepthUpdate)
  | ping
  | pong
  deriving DecidableEq

def Message.update? : Message → Option DepthUpdate
  | text upd => some upd
  | binary upd => some upd
  | ping => none
  | pong => none

/-- `UPDATE_LIMIT` -/
def updateLimit : Nat := 100

inductive Phase where
  | bridge
  | steady
  | left
  deriving DecidableEq

/-- Messages are numbered from 0. `samples` are the numbers of those for which a latency
was recorded, `bridged` is the one with which the bridge phase came to its end. -/
structure Session (F : Type) [LinearOrder F] where
  feed : Feed F
  phase : Phase := .bridge
  received : Nat := 0
  samples : List Nat := []
  bridged : Option Nat := none
  deriving DecidableEq

variable [Zero F]

namespace MainRs

/-- One message in `run_once`. -/
def receive (n : Numbers F) (s : Session F) (msg : Message) : Session F :=
  match s.phase with
  | .bridge =>
      match msg.update? with
      | none => { s with received := s.received + 1 }
      | some update =>
          match MainRs.applyUpdate n s.feed update with
          | (feed, .error _) => { s with feed, phase := .left, received := s.received + 1 }
          | (feed, .ok ()) =>
              let samples := s.samples ++ [s.received]
              -- behind the limit check stands `break`, whatever the update did
              { feed, samples, received := s.received + 1, bridged := some s.received
                phase := if samples.length ≥ updateLimit then .left else .steady }
  | .steady =>
      match msg.update? with
      | none =>
          { s with
            received := s.received + 1
            phase := if s.samples.length ≥ updateLimit then .left else .steady }
      | some update =>
          match MainRs.applyUpdate n s.feed update with
          | (feed, .error _) => { s with feed, phase := .left, received := s.received + 1 }
          | (feed, .ok ()) =>
              let samples := s.samples ++ [s.received]
              { s with
                feed, samples
                received := s.received + 1
                phase := if samples.length ≥ updateLimit then .left else .steady }
  | .left => s

def session (n : Numbers F) (snapshot : Feed F) (msgs : List Message) : Session F :=
  msgs.foldl (receive n) { feed := snapshot }

end MainRs

namespace Md

/-- One message in `main`; `taken` are the samples of the connections before. -/
def receive (n : Numbers F) (taken : Nat) (s : Session F) (msg : Message) : Session F :=
  match s.phase with
  | .bridge =>
      match msg.update? with
      | none => { s with received := s.received + 1 }
      | some update =>
          match Md.applyUpdateJson n s.feed update with
          -- `catch (...) { continue; }`
          | (feed, .error _) => { s with feed, received := s.received + 1 }
          | (feed, .ok ()) =>
              if feed.lastUpdateId ≠ s.feed.lastUpdateId then
                let samples := s.samples ++ [s.received]
                { feed, samples, received := s.received + 1, bridged := some s.received
                  phase := if taken + samples.length ≥ updateLimit then .left else .steady }
              else { s with feed, received := s.received + 1 }
  | .steady =>
      match msg.update? with
      | none => { s with received := s.received + 1 }
      | some update =>
          match Md.applyUpdateJson n s.feed update with
          | (feed, .error _) => { s with feed, phase := .left, received := s.received + 1 }
          | (feed, .ok ()) =>
              let samples := s.samples ++ [s.received]
              { s with
                feed, samples
                received := s.received + 1
                phase := if taken + samples.length ≥ updateLimit then .left else .steady }
  | .left => s

def session (n : Numbers F) (taken : Nat) (snapshot : Feed F) (msgs : List Message) : Session F :=
  msgs.foldl (receive n taken) { feed := snapshot }

end Md

end CppCodes.Source.RustCpp
