import CppCodes.Guarantees.FramingRoundTrip
import CppCodes.Source.HftTest.ByteVector

/-!
# What the receive loops consume

The converse of the round trip, for arbitrary octets in the receive buffer: the
loop over `unpack_frame` takes off a sequence of frames and nothing else, and
stops where the rest holds no complete one. Both programs run on these frames;
the payloads they skip leave no trace in their state.
-/

set_option autoImplicit false

namespace CppCodes.Guarantees.FrameConsumption

open CppCodes.Library
open CppCodes.Source.HftTest
open CppCodes.Guarantees.FramingRoundTrip

/-- The octets before `offset` are the frames of `payloads`, and no complete
frame starts there. -/
structure Consumed (bytes : Bytes) (payloads : List Bytes) (offset : Nat) : Prop where
  inside : offset ≤ bytes.length
  sized : ∀ payload ∈ payloads, payload.length < 2 ^ 32
  frames : bytes.take offset = payloads.flatMap packWithLength
  incomplete : ∀ data rest, data.length < 2 ^ 32 → bytes.drop offset ≠ packWithLength data ++ rest

/-- What `parse_exec_reports` does not skip. -/
def isExecReport (payload : Bytes) : Bool :=
  sizeofWireExecReport ≤ payload.length ∧
    (WireExecReport.ofBytes payload).hdr.magic = kProtocolMagic ∧
    (WireExecReport.ofBytes payload).hdr.msgType = kMsgExecReport

/-- What `parse_messages` does not skip. -/
def isNewOrder (payload : Bytes) : Bool :=
  sizeofWireNewOrder ≤ payload.length ∧
    (WireNewOrder.ofBytes payload).hdr.magic = kProtocolMagic ∧
    (WireNewOrder.ofBytes payload).hdr.msgType = kMsgNewOrder

theorem parsePayload_exec_skip (clock : Nat → Int64) (s : OmsEngine × Nat) {payload : Bytes}
    (h : isExecReport payload = false) : OmsEngine.parsePayload clock s payload = s := by
  have hnone (now : Int64) : OmsEngine.execUpdateOf payload now = none := by
    unfold OmsEngine.execUpdateOf
    by_cases hshort : payload.length < sizeofWireExecReport
    · simp [hshort]
    · have hlong : sizeofWireExecReport ≤ payload.length := by omega
      simp only [isExecReport, hlong, true_and, decide_eq_false_iff_not,
        Classical.not_and_iff_not_or_not] at h
      simp [hshort, h]
  simp [OmsEngine.parsePayload, hnone]

theorem parsePayload_order_skip (clock : Nat → Int64) (gaps : Nat → UInt32 × UInt32)
    (s : List WireExecReport × Nat) {payload : Bytes} (h : isNewOrder payload = false) :
    SimExServer.parsePayload clock gaps s payload = s := by
  have hnone : SimExServer.newOrderOf payload = none := by
    unfold SimExServer.newOrderOf
    by_cases hshort : payload.length < sizeofWireNewOrder
    · simp [hshort]
    · have hlong : sizeofWireNewOrder ≤ payload.length := by omega
      simp only [isNewOrder, hlong, true_and, decide_eq_false_iff_not,
        Classical.not_and_iff_not_or_not] at h
      simp [hshort, h]
  simp [SimExServer.parsePayload, hnone]

/-- A fold does not see what its step ignores. -/
theorem foldl_filter_of_skip {σ : Type} {f : σ → Bytes → σ} {accepts : Bytes → Bool}
    (hskip : ∀ s payload, accepts payload = false → f s payload = s) (payloads : List Bytes)
    (s : σ) : (payloads.filter accepts).foldl f s = payloads.foldl f s := by
  have hstep : (fun s payload => if accepts payload = true then f s payload else s) = f := by
    funext s payload
    cases hp : accepts payload with
    | true => rfl
    | false => exact (hskip s payload hp).symm
  rw [List.foldl_filter, hstep]

/-- The streaming decoder consumes exactly the frames it returns. -/
theorem consumed_decodeAll (bytes : Bytes) :
    Consumed bytes (lengthPrefixed.decodeAll bytes).1
      ((lengthPrefixed.decodeAll bytes).1.flatMap packWithLength).length := by
  obtain ⟨hbytes, hleft⟩ := lengthPrefixed.decodeAll_sound bytes
  have hsized := lengthPrefixed.decodeAll_valid bytes
  generalize lengthPrefixed.decodeAll bytes = decoded at hbytes hleft hsized ⊢
  obtain ⟨payloads, left⟩ := decoded
  change bytes = payloads.flatMap packWithLength ++ left at hbytes
  subst hbytes
  refine ⟨by simp, hsized, List.take_left, ?_⟩
  intro data rest hdata h
  rw [List.drop_left] at h
  change splitFrame left = none at hleft
  rw [h, splitFrame_packWithLength data rest hdata] at hleft
  cases hleft

/-- The conjuncts after `Consumed`: the loop of `unpack_frame` returns these
payloads; its last call fails at the offset; the two programs stop at the same
offset, with the skipped payloads left out of the effect and not of the framing;
no call at an offset in the buffer reads outside of it; and a call that fails,
wherever it is made, changes nothing. -/
theorem frames_consumed_exactly (buf : ByteVector) :
    ∃ (payloads : List Bytes) (offset : UInt64),
      Consumed buf.bytes payloads offset.toNat ∧
      buf.parseLoop (fun seen payload => some (collect seen payload)) 0 [] [] =
        some (payloads, offset, payloads.getLastD []) ∧
      buf.unpackFrame offset (payloads.getLastD []) =
        some (false, offset, payloads.getLastD []) ∧
      (∀ clock s, OmsEngine.parseExecReports clock buf s = some (buf.bytes.drop offset.toNat,
        (payloads.filter isExecReport).foldl (OmsEngine.parsePayload clock) s)) ∧
      (∀ clock gaps s, SimExServer.parseMessages clock gaps buf s =
        some (buf.bytes.drop offset.toNat,
          (payloads.filter isNewOrder).foldl (SimExServer.parsePayload clock gaps) s)) ∧
      (∀ pos payload, pos.toNat ≤ buf.bytes.length → (buf.unpackFrame pos payload).isSome) ∧
      ∀ pos payload last data, buf.unpackFrame pos payload = some (false, last, data) →
        last = pos ∧ data = payload := by
  have hsize := buf.size_lt
  have hconsumed := consumed_decodeAll buf.bytes
  have hinside := hconsumed.inside
  have hloop := buf.parseLoop_eq (f := collect) (fun _ _ => rfl) 0 [] [] (Nat.zero_le _)
  obtain ⟨hbytes, hnone⟩ := lengthPrefixed.decodeAll_sound buf.bytes
  simp only [UInt64.toNat_zero, List.drop_zero, Nat.zero_add, foldl_collect, List.nil_append]
    at hloop
  obtain ⟨offset, hoffset⟩ : ∃ offset : UInt64, offset =
      .ofNat ((lengthPrefixed.decodeAll buf.bytes).1.flatMap packWithLength).length := ⟨_, rfl⟩
  have hnat : ((lengthPrefixed.decodeAll buf.bytes).1.flatMap packWithLength).length =
      offset.toNat := by
    rw [hoffset, UInt64.toNat_ofNat', Nat.mod_eq_of_lt (by omega)]
  have hleft : (lengthPrefixed.decodeAll buf.bytes).2 = buf.bytes.drop offset.toNat := by
    rw [← hnat]
    exact (lengthPrefixed.decodeAll_left buf.bytes).symm
  rw [hnat] at hconsumed hinside
  rw [← hoffset] at hloop
  refine ⟨(lengthPrefixed.decodeAll buf.bytes).1, offset, hconsumed, hloop, ?_, ?_, ?_, ?_, ?_⟩
  · change splitFrame _ = none at hnone
    rw [buf.unpackFrame_splitFrame offset _ hinside, ← hleft, hnone]
  · intro clock s
    rw [OmsEngine.parseExecReports_eq, hleft,
      foldl_filter_of_skip fun s payload => parsePayload_exec_skip clock s]
  · intro clock gaps s
    rw [SimExServer.parseMessages_eq, hleft,
      foldl_filter_of_skip fun s payload => parsePayload_order_skip clock gaps s]
  · intro pos payload hpos
    rw [buf.unpackFrame_eq pos payload hpos]
    rfl
  · intro pos payload last data h
    exact buf.unpackFrame_false h

end CppCodes.Guarantees.FrameConsumption
