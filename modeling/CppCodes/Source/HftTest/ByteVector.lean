import CppCodes.Source.HftTest.OmsEngine
import CppCodes.Source.HftTest.SimExServer

/-!
# Frames in a buffer that can be overrun

Source: hft_test/include/protocol.h:56-65, hft_main.cpp:354-377 and
simex_server.cpp:83-94 once more, with what `unpackFrame` and `frameLoop` leave
out: offsets are `size_t` and wrap, and a read outside the vector it is made from
is undefined behaviour, written `none`. Nothing of this happens on a vector that
fits in memory, whatever length words it holds (`unpackFrame_eq`, `parseLoop_eq`).
-/

set_option autoImplicit false

namespace CppCodes.Source.HftTest

open CppCodes.Library

variable {σ : Type*}

/-- A `std::vector<uint8_t>`: `max_size()` is `PTRDIFF_MAX`. -/
structure ByteVector where
  bytes : Bytes
  size_lt : bytes.length < 2 ^ 63

/-- The `count` octets from `first` on. -/
def readOctets (bytes : Bytes) (first count : Nat) : Option Bytes :=
  if first + count ≤ bytes.length then some ((bytes.drop first).take count) else none

/-- `erase(begin(), begin() + offset)`. -/
def eraseFront (bytes : Bytes) (offset : UInt64) : Option Bytes :=
  if offset.toNat ≤ bytes.length then some (bytes.drop offset.toNat) else none

namespace ByteVector

def size (buf : ByteVector) : UInt64 := .ofNat buf.bytes.length

/-- `unpack_frame` behind its first check, with the length word `len` in host order. -/
def unpackPayload (buf : ByteVector) (offset : UInt64) (payload : Bytes) (len : UInt32) :
    Option (Bool × UInt64 × Bytes) :=
  if offset + 4 + len.toUInt64 > buf.size then some (false, offset, payload)
  else do
    let data ← readOctets buf.bytes (offset.toNat + 4) len.toNat
    return (true, offset + (4 + len.toUInt64), data)

def unpackFrame (buf : ByteVector) (offset : UInt64) (payload : Bytes) :
    Option (Bool × UInt64 × Bytes) :=
  if offset + 4 > buf.size then some (false, offset, payload)
  else do
    let beLen ← readOctets buf.bytes offset.toNat 4
    buf.unpackPayload offset payload (.ofNat (ntohl (ofLeBytes beLen)))

variable (buf : ByteVector)

@[simp] theorem size_toNat : buf.size.toNat = buf.bytes.length := by
  have h := buf.size_lt
  simp only [size, UInt64.toNat_ofNat']
  omega

/-- An offset is only moved by a call that has read a length word at it. -/
theorem unpackFrame_true {offset next : UInt64} {payload data : Bytes}
    (h : buf.unpackFrame offset payload = some (true, next, data)) :
    offset.toNat < next.toNat ∧ offset.toNat + 4 ≤ buf.bytes.length := by
  have hsize := buf.size_lt
  simp only [unpackFrame, readOctets] at h
  split at h
  · cases h
  · split at h
    · next hword =>
      simp only [Option.bind_eq_bind, Option.bind_some, unpackPayload, readOctets] at h
      split at h
      · cases h
      · split at h
        · simp only [Option.bind_some, Option.pure_def, Option.some.injEq, Prod.mk.injEq,
            true_and] at h
          obtain ⟨rfl, -⟩ := h
          generalize UInt32.ofNat _ = len
          have hlen := len.toNat_lt
          simp only [UInt64.toNat_add, UInt32.toNat_toUInt64, UInt64.reduceToNat]
          omega
        · cases h
    · cases h

/-- On an offset in the vector no read leaves the vector and no sum wraps. -/
theorem unpackFrame_eq (offset : UInt64) (payload : Bytes) (h : offset.toNat ≤ buf.bytes.length) :
    buf.unpackFrame offset payload =
      match HftTest.unpackFrame buf.bytes offset.toNat payload with
      | (found, last, data) => some (found, .ofNat last, data) := by
  have hsize := buf.size_lt
  have hfour : (offset + 4).toNat = offset.toNat + 4 := by
    simp only [UInt64.toNat_add, UInt64.reduceToNat]
    omega
  unfold unpackFrame HftTest.unpackFrame
  by_cases hshort : offset.toNat + 4 > buf.bytes.length
  · have hcheck : offset + 4 > buf.size := by
      rw [gt_iff_lt, UInt64.lt_iff_toNat_lt, hfour, size_toNat]
      exact hshort
    simp [hshort, hcheck]
  · have hcheck : ¬ offset + 4 > buf.size := by
      rw [gt_iff_lt, UInt64.lt_iff_toNat_lt, hfour, size_toNat]
      exact hshort
    have hword : offset.toNat + 4 ≤ buf.bytes.length := by omega
    have hlen := ntohl_lt (ofLeBytes ((buf.bytes.drop offset.toNat).take 4))
    simp only [hshort, hcheck, if_false, readOctets, if_pos hword, Option.bind_eq_bind,
      Option.bind_some, unpackPayload]
    generalize ntohl (ofLeBytes ((buf.bytes.drop offset.toNat).take 4)) = len at hlen ⊢
    have hsmall : (UInt32.ofNat len).toNat = len := by
      rw [UInt32.toNat_ofNat']
      omega
    have hsum : (offset + 4 + (UInt32.ofNat len).toUInt64).toNat = offset.toNat + 4 + len := by
      rw [UInt64.toNat_add, hfour, UInt32.toNat_toUInt64, hsmall]
      omega
    by_cases hcut : offset.toNat + 4 + len > buf.bytes.length
    · have hcheck : offset + 4 + (UInt32.ofNat len).toUInt64 > buf.size := by
        rw [gt_iff_lt, UInt64.lt_iff_toNat_lt, hsum, size_toNat]
        exact hcut
      simp [hcut, hcheck]
    · have hcheck : ¬ offset + 4 + (UInt32.ofNat len).toUInt64 > buf.size := by
        rw [gt_iff_lt, UInt64.lt_iff_toNat_lt, hsum, size_toNat]
        exact hcut
      have hdata : offset.toNat + 4 + len ≤ buf.bytes.length := by omega
      have hlast : offset + (4 + (UInt32.ofNat len).toUInt64) =
          UInt64.ofNat (offset.toNat + 4 + len) := by
        rw [← UInt64.add_assoc, ← hsum, UInt64.ofNat_toNat]
      simp [hcut, hcheck, hsmall, hdata, hlast]

/-- `unpackFrame_eq` by the frame at the offset. -/
theorem unpackFrame_splitFrame (offset : UInt64) (payload : Bytes)
    (h : offset.toNat ≤ buf.bytes.length) :
    buf.unpackFrame offset payload =
      match splitFrame (buf.bytes.drop offset.toNat) with
      | none => some (false, offset, payload)
      | some (data, _) => some (true, .ofNat (offset.toNat + (4 + data.length)), data) := by
  rw [unpackFrame_eq buf offset payload h, unpackFrame_drop]
  cases splitFrame (buf.bytes.drop offset.toNat) <;> simp

/-- A call that finds no frame leaves its reference parameters alone. -/
theorem unpackFrame_false {offset last : UInt64} {payload data : Bytes}
    (h : buf.unpackFrame offset payload = some (false, last, data)) :
    last = offset ∧ data = payload := by
  unfold unpackFrame at h
  by_cases hshort : offset + 4 > buf.size
  · rw [if_pos hshort] at h
    simp_all
  · rw [if_neg hshort] at h
    cases hword : readOctets buf.bytes offset.toNat 4 with
    | none => simp [hword] at h
    | some beLen =>
      simp only [hword, Option.bind_eq_bind, Option.bind_some, unpackPayload] at h
      generalize UInt32.ofNat (ntohl (ofLeBytes beLen)) = len at h
      by_cases hcut : offset + 4 + len.toUInt64 > buf.size
      · rw [if_pos hcut] at h
        simp_all
      · rw [if_neg hcut] at h
        cases hdata : readOctets buf.bytes (offset.toNat + 4) len.toNat with
        | none => simp [hdata] at h
        | some octets => simp [hdata] at h

/-- `while (unpack_frame(buf, offset, payload)) body(payload)`, with the offset
and the payload after the call that ends it. -/
def parseLoop (body : σ → Bytes → Option σ) (offset : UInt64) (payload : Bytes) (s : σ) :
    Option (σ × UInt64 × Bytes) :=
  match _h : buf.unpackFrame offset payload with
  | none => none
  | some (false, last, data) => some (s, last, data)
  | some (true, next, data) =>
      match body s data with
      | none => none
      | some t => parseLoop body next data t
termination_by buf.bytes.length - offset.toNat
decreasing_by
  have hmoved := buf.unpackFrame_true _h
  omega

/-- The body runs on the frames of the streaming decoder, in order; the offset
ends behind the last of them, and the payload is the last one read. -/
theorem parseLoop_eq {body : σ → Bytes → Option σ} {f : σ → Bytes → σ}
    (hbody : ∀ s data, body s data = some (f s data)) (offset : UInt64) (payload : Bytes) (s : σ)
    (h : offset.toNat ≤ buf.bytes.length) :
    buf.parseLoop body offset payload s =
      let payloads := (lengthPrefixed.decodeAll (buf.bytes.drop offset.toNat)).1
      some (payloads.foldl f s,
        .ofNat (offset.toNat + (payloads.flatMap packWithLength).length),
        payloads.getLastD payload) := by
  have hsize := buf.size_lt
  fun_induction buf.parseLoop body offset payload s with
  | case1 offset payload s hnone =>
    rw [unpackFrame_splitFrame buf offset payload h] at hnone
    split at hnone <;> cases hnone
  | case2 offset payload s last data hlast =>
    rw [unpackFrame_splitFrame buf offset payload h] at hlast
    split at hlast
    · next hd =>
      cases hlast
      simp [lengthPrefixed.decodeAll_none hd]
    · cases hlast
  | case3 offset payload s next data hnext hnone =>
    rw [hbody] at hnone
    cases hnone
  | case4 offset payload s next data hnext t hsome ih =>
    rw [unpackFrame_splitFrame buf offset payload h] at hnext
    split at hnext
    · cases hnext
    · next split rest hd =>
      cases hnext
      rw [hbody] at hsome
      cases hsome
      obtain ⟨-, hbytes⟩ := splitFrame_sound hd
      have hlen : buf.bytes.length - offset.toNat = 4 + data.length + rest.length := by
        rw [← List.length_drop, hbytes, List.length_append, packWithLength_length]
      have hnext : (UInt64.ofNat (offset.toNat + (4 + data.length))).toNat =
          offset.toNat + (packWithLength data).length := by
        rw [UInt64.toNat_ofNat', packWithLength_length]
        omega
      have hrest : buf.bytes.drop (offset.toNat + (packWithLength data).length) = rest := by
        rw [← List.drop_drop, hbytes, List.drop_left]
      have hinside : offset.toNat + (packWithLength data).length ≤ buf.bytes.length := by
        rw [packWithLength_length]
        omega
      rw [hnext, hrest] at ih
      rw [ih hinside, lengthPrefixed.decodeAll_some hd]
      simp only [List.foldl_cons, List.flatMap_cons, List.length_append, List.getLastD_cons,
        Nat.add_assoc]

/-- What the loop started at offset 0 erases and keeps. -/
theorem eraseFront_decoded :
    eraseFront buf.bytes (.ofNat
      ((lengthPrefixed.decodeAll buf.bytes).1.flatMap packWithLength).length) =
      some (lengthPrefixed.decodeAll buf.bytes).2 := by
  have hsize := buf.size_lt
  have hleft := lengthPrefixed.decodeAll_left buf.bytes
  have hlen := congrArg List.length (lengthPrefixed.decodeAll_sound buf.bytes).1
  change _ = ((lengthPrefixed.decodeAll buf.bytes).1.flatMap packWithLength ++ _).length at hlen
  rw [List.length_append] at hlen
  have hoffset : (UInt64.ofNat ((lengthPrefixed.decodeAll buf.bytes).1.flatMap
      packWithLength).length).toNat =
      ((lengthPrefixed.decodeAll buf.bytes).1.flatMap packWithLength).length := by
    rw [UInt64.toNat_ofNat', Nat.mod_eq_of_lt (by omega)]
  rw [eraseFront, hoffset, if_pos (by omega)]
  exact congrArg some hleft

end ByteVector

/-! ## The two loop bodies -/

namespace OmsEngine

/-- One round of `parse_exec_reports`. -/
def parseReport (clock : Nat → Int64) (s : OmsEngine × Nat) (payload : Bytes) :
    Option (OmsEngine × Nat) :=
  if payload.length < sizeofWireExecReport then some s
  else do
    let octets ← readOctets payload 0 sizeofWireExecReport
    let w := WireExecReport.ofBytes octets
    if w.hdr.magic ≠ kProtocolMagic ∨ w.hdr.msgType ≠ kMsgExecReport then some s
    else some (s.1.applyReport {
      clOrdId := w.clOrdId
      mdEventId := w.mdEventId
      execType := .ofByte w.execType
      fillPx := w.fillPx
      fillQty := w.fillQty
      tsOmsRecvNs := clock s.2 }, s.2 + 1)

/-- The copy of the record stays in the payload. -/
theorem parseReport_eq (clock : Nat → Int64) (s : OmsEngine × Nat) (payload : Bytes) :
    parseReport clock s payload = some (parsePayload clock s payload) := by
  unfold parseReport parsePayload execUpdateOf
  by_cases hshort : payload.length < sizeofWireExecReport
  · simp [hshort]
  · have hinside : 0 + sizeofWireExecReport ≤ payload.length := by omega
    have hcopy : WireExecReport.ofBytes (payload.take sizeofWireExecReport) =
        WireExecReport.ofBytes payload := by
      rw [WireExecReport.ofBytes, sizeofWireExecReport, decodeFields_take, WireExecReport.ofBytes]
    simp only [hshort, if_false, readOctets, if_pos hinside, List.drop_zero, Option.bind_eq_bind,
      Option.bind_some, hcopy]
    split <;> rfl

def parseExecReports (clock : Nat → Int64) (rxBuffer : ByteVector) (s : OmsEngine × Nat) :
    Option (Bytes × OmsEngine × Nat) := do
  let (s, offset, _) ← rxBuffer.parseLoop (parseReport clock) 0 [] s
  let left ← eraseFront rxBuffer.bytes offset
  return (left, s)

theorem parseExecReports_eq (clock : Nat → Int64) (rxBuffer : ByteVector) (s : OmsEngine × Nat) :
    parseExecReports clock rxBuffer s =
      some ((lengthPrefixed.decodeAll rxBuffer.bytes).2,
        (lengthPrefixed.decodeAll rxBuffer.bytes).1.foldl (parsePayload clock) s) := by
  have hloop := rxBuffer.parseLoop_eq (parseReport_eq clock) 0 [] s (Nat.zero_le _)
  have herase := rxBuffer.eraseFront_decoded
  simp only [UInt64.toNat_zero, List.drop_zero, Nat.zero_add] at hloop
  simp only [parseExecReports, hloop, Option.bind_eq_bind, Option.bind_some, herase]
  rfl

/-- On a buffer that fits in memory `handleSocketRead` is `recv`, `insert` and
`parse_exec_reports`. -/
theorem parseExecReports_handleSocketRead (clock : Nat → Int64) (s : Bytes × OmsEngine × Nat)
    (chunk : Bytes) (h : (s.1 ++ chunk).length < 2 ^ 63) :
    parseExecReports clock ⟨s.1 ++ chunk, h⟩ s.2 = some (handleSocketRead clock s chunk) := by
  rw [parseExecReports_eq, handleSocketRead, receive_eq]

end OmsEngine

namespace SimExServer

/-- One round of `parse_messages`, with the reports of `handle_new_order`. -/
def parseMessage (clock : Nat → Int64) (gaps : Nat → UInt32 × UInt32)
    (s : List WireExecReport × Nat) (payload : Bytes) : Option (List WireExecReport × Nat) :=
  if payload.length < sizeofWireNewOrder then some s
  else do
    let octets ← readOctets payload 0 sizeofWireNewOrder
    let w := WireNewOrder.ofBytes octets
    if w.hdr.magic ≠ kProtocolMagic ∨ w.hdr.msgType ≠ kMsgNewOrder then some s
    else some (s.1 ++ [ackReport w (clock s.2) (clock (s.2 + 1)) (gaps s.2),
      fillReport w (clock s.2) (clock (s.2 + 2)) (gaps (s.2 + 1))], s.2 + 3)

theorem parseMessage_eq (clock : Nat → Int64) (gaps : Nat → UInt32 × UInt32)
    (s : List WireExecReport × Nat) (payload : Bytes) :
    parseMessage clock gaps s payload = some (parsePayload clock gaps s payload) := by
  unfold parseMessage parsePayload newOrderOf
  by_cases hshort : payload.length < sizeofWireNewOrder
  · simp [hshort]
  · have hinside : 0 + sizeofWireNewOrder ≤ payload.length := by omega
    have hcopy : WireNewOrder.ofBytes (payload.take sizeofWireNewOrder) =
        WireNewOrder.ofBytes payload := by
      rw [WireNewOrder.ofBytes, sizeofWireNewOrder, decodeFields_take, WireNewOrder.ofBytes]
    simp only [hshort, if_false, readOctets, if_pos hinside, List.drop_zero, Option.bind_eq_bind,
      Option.bind_some, hcopy]
    split <;> rfl

def parseMessages (clock : Nat → Int64) (gaps : Nat → UInt32 × UInt32) (buf : ByteVector)
    (s : List WireExecReport × Nat) : Option (Bytes × List WireExecReport × Nat) := do
  let (s, offset, _) ← buf.parseLoop (parseMessage clock gaps) 0 [] s
  let left ← eraseFront buf.bytes offset
  return (left, s)

theorem parseMessages_eq (clock : Nat → Int64) (gaps : Nat → UInt32 × UInt32) (buf : ByteVector)
    (s : List WireExecReport × Nat) :
    parseMessages clock gaps buf s =
      some ((lengthPrefixed.decodeAll buf.bytes).2,
        (lengthPrefixed.decodeAll buf.bytes).1.foldl (parsePayload clock gaps) s) := by
  have hloop := buf.parseLoop_eq (parseMessage_eq clock gaps) 0 [] s (Nat.zero_le _)
  have herase := buf.eraseFront_decoded
  simp only [UInt64.toNat_zero, List.drop_zero, Nat.zero_add] at hloop
  simp only [parseMessages, hloop, Option.bind_eq_bind, Option.bind_some, herase]
  rfl

theorem parseMessages_handleRead (clock : Nat → Int64) (gaps : Nat → UInt32 × UInt32)
    (s : Bytes × List WireExecReport × Nat) (chunk : Bytes)
    (h : (s.1 ++ chunk).length < 2 ^ 63) :
    parseMessages clock gaps ⟨s.1 ++ chunk, h⟩ s.2 = some (handleRead clock gaps s chunk) := by
  rw [parseMessages_eq, handleRead, receive_eq]

end SimExServer

end CppCodes.Source.HftTest
