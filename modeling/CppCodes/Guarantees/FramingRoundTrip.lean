import CppCodes.Source.HftTest.OmsEngine
import CppCodes.Source.HftTest.SimExServer

/-!
# Frames survive every chunking

Both receive paths of the prototype: however the bytes of a list of frames are
cut into arrivals, the loop body runs once on each payload, in order, and the
receive buffer ends empty.
-/

set_option autoImplicit false

namespace CppCodes.Guarantees.FramingRoundTrip

open CppCodes.Library
open CppCodes.Source.HftTest

/-- Collect the payloads, oldest first. -/
def collect (seen : List Bytes) (payload : Bytes) : List Bytes := seen ++ [payload]

theorem foldl_collect (payloads seen : List Bytes) :
    payloads.foldl collect seen = seen ++ payloads := by
  induction payloads generalizing seen with
  | nil => simp
  | cons payload payloads ih =>
    rw [List.foldl_cons, ih, collect, List.append_assoc, List.singleton_append]

theorem receive_frames {σ : Type} (body : σ → Bytes → σ) (s : σ) {payloads chunks : List Bytes}
    (hshort : ∀ payload ∈ payloads, payload.length < 2 ^ 32)
    (hcut : chunks.flatten = payloads.flatMap packWithLength) :
    chunks.foldl (receive body) ([], s) = ([], payloads.foldl body s) := by
  have hdecode := lengthPrefixed.decodeAll_encode payloads [] hshort
  rw [lengthPrefixed.decodeAll_nil, List.append_nil, List.append_nil] at hdecode
  have hbytes : chunks.flatten = payloads.flatMap lengthPrefixed.encode := hcut
  rw [receive_foldl, hbytes, hdecode]

/-- The payloads come out of the shared loop as they went in, and so do the two
programs' own states: the engine of the OMS and the reports of the simulator. -/
theorem frames_survive_chunking (payloads chunks : List Bytes)
    (hshort : ∀ payload ∈ payloads, payload.length < 2 ^ 32)
    (hcut : chunks.flatten = payloads.flatMap packWithLength) :
    chunks.foldl (receive collect) ([], []) = ([], payloads) ∧
      (∀ (σ : Type) (body : σ → Bytes → σ) (s : σ),
        chunks.foldl (receive body) ([], s) = ([], payloads.foldl body s)) ∧
      (∀ clock s, chunks.foldl (OmsEngine.handleSocketRead clock) ([], s) =
        ([], payloads.foldl (OmsEngine.parsePayload clock) s)) ∧
      ∀ clock gaps s, chunks.foldl (SimExServer.handleRead clock gaps) ([], s) =
        ([], payloads.foldl (SimExServer.parsePayload clock gaps) s) := by
  refine ⟨?_, fun _ body s => receive_frames body s hshort hcut,
    fun clock s => receive_frames _ s hshort hcut,
    fun clock gaps s => receive_frames _ s hshort hcut⟩
  rw [receive_frames collect [] hshort hcut, foldl_collect, List.nil_append]

/-- An empty payload and one octet, cut inside both length words. -/
theorem frames_survive_chunking_two_frames :
    ([[0, 0], [0], [0, 0, 0], [0, 1], [7]] : List Bytes).foldl (receive collect) ([], []) =
      ([], [[], [7]]) :=
  (frames_survive_chunking [[], [7]] [[0, 0], [0], [0, 0, 0], [0, 1], [7]] (by decide)
    (by decide)).1

end CppCodes.Guarantees.FramingRoundTrip
