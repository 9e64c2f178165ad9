import CppCodes.Library.ByteLayout
import CppCodes.Library.FrameCode
import CppCodes.Source.HftTest.Common

/-!
# Wire protocol: object representations and length-prefixed frames

Source: hft_test/include/protocol.h:11-65. The structs are copied to the wire as
they lie in memory on a little-endian host with natural alignment, so each one
is a layout of fields in which the padding octets are fields too; their values
are indeterminate in the source and arbitrary here. Lengths of vectors are
natural numbers: `offset + 4 + len` is below 2^64 for every buffer that fits in
memory.
-/

set_option autoImplicit false

namespace CppCodes.Source.HftTest

open CppCodes.Library

def kProtocolMagic : UInt16 := 0xA11C
def kMsgNewOrder : UInt8 := 1
def kMsgExecReport : UInt8 := 2

structure WireHeader where
  magic : UInt16 := kProtocolMagic
  msgType : UInt8 := 0
  reserved : UInt8 := 0
  deriving DecidableEq

/-- `padding4` and `padding28` are the alignment gaps at offsets 4 and 28. -/
structure WireNewOrder where
  hdr : WireHeader := { msgType := kMsgNewOrder }
  padding4 : UInt32 := 0
  clOrdId : UInt64 := 0
  mdEventId : UInt64 := 0
  side : UInt8 := 0
  ordType : UInt8 := 0
  tif : UInt8 := 0
  pad : UInt8 := 0
  padding28 : UInt32 := 0
  px : Int64 := 0
  qty : Int64 := 0
  tOmsSendNs : Int64 := 0
  deriving DecidableEq

/-- `padding4` and `padding28` are the alignment gaps at offsets 4 and 28; the
declared `_pad[3]` lies between `exec_type` and the second gap. -/
structure WireExecReport where
  hdr : WireHeader := { msgType := kMsgExecReport }
  padding4 : UInt32 := 0
  clOrdId : UInt64 := 0
  mdEventId : UInt64 := 0
  execType : UInt8 := 0
  pad0 : UInt8 := 0
  pad1 : UInt8 := 0
  pad2 : UInt8 := 0
  padding28 : UInt32 := 0
  fillPx : Int64 := 0
  fillQty : Int64 := 0
  tSimRecvNs : Int64 := 0
  tSimSendNs : Int64 := 0
  reason : Int32 := 0
  padTail : Int32 := 0
  deriving DecidableEq

def WireNewOrder.layout : List Nat := [2, 1, 1, 4, 8, 8, 1, 1, 1, 1, 4, 8, 8, 8]

def WireExecReport.layout : List Nat := [2, 1, 1, 4, 8, 8, 1, 1, 1, 1, 4, 8, 8, 8, 8, 4, 4]

/-- `sizeof(WireNewOrder)` and `sizeof(WireExecReport)`. -/
def sizeofWireNewOrder : Nat := WireNewOrder.layout.sum
def sizeofWireExecReport : Nat := WireExecReport.layout.sum

def WireNewOrder.values (w : WireNewOrder) : List Nat :=
  [w.hdr.magic.toNat, w.hdr.msgType.toNat, w.hdr.reserved.toNat, w.padding4.toNat,
    w.clOrdId.toNat, w.mdEventId.toNat, w.side.toNat, w.ordType.toNat, w.tif.toNat, w.pad.toNat,
    w.padding28.toNat, w.px.toUInt64.toNat, w.qty.toUInt64.toNat, w.tOmsSendNs.toUInt64.toNat]

def WireExecReport.values (w : WireExecReport) : List Nat :=
  [w.hdr.magic.toNat, w.hdr.msgType.toNat, w.hdr.reserved.toNat, w.padding4.toNat,
    w.clOrdId.toNat, w.mdEventId.toNat, w.execType.toNat, w.pad0.toNat, w.pad1.toNat, w.pad2.toNat,
    w.padding28.toNat, w.fillPx.toUInt64.toNat, w.fillQty.toUInt64.toNat,
    w.tSimRecvNs.toUInt64.toNat, w.tSimSendNs.toUInt64.toNat, w.reason.toUInt32.toNat,
    w.padTail.toUInt32.toNat]

/-- The octets of the object, as `memcpy` takes them. -/
def WireNewOrder.toBytes (w : WireNewOrder) : Bytes := encodeFields (layout.zip w.values)
def WireExecReport.toBytes (w : WireExecReport) : Bytes := encodeFields (layout.zip w.values)

def WireNewOrder.ofValues : List Nat → WireNewOrder
  | [magic, msgType, reserved, padding4, clOrdId, mdEventId, side, ordType, tif, pad, padding28,
      px, qty, tOmsSendNs] =>
    { hdr := ⟨.ofNat magic, .ofNat msgType, .ofNat reserved⟩, padding4 := .ofNat padding4,
      clOrdId := .ofNat clOrdId, mdEventId := .ofNat mdEventId, side := .ofNat side,
      ordType := .ofNat ordType, tif := .ofNat tif, pad := .ofNat pad,
      padding28 := .ofNat padding28, px := (UInt64.ofNat px).toInt64,
      qty := (UInt64.ofNat qty).toInt64, tOmsSendNs := (UInt64.ofNat tOmsSendNs).toInt64 }
  | _ => {}

def WireExecReport.ofValues : List Nat → WireExecReport
  | [magic, msgType, reserved, padding4, clOrdId, mdEventId, execType, pad0, pad1, pad2, padding28,
      fillPx, fillQty, tSimRecvNs, tSimSendNs, reason, padTail] =>
    { hdr := ⟨.ofNat magic, .ofNat msgType, .ofNat reserved⟩, padding4 := .ofNat padding4,
      clOrdId := .ofNat clOrdId, mdEventId := .ofNat mdEventId, execType := .ofNat execType,
      pad0 := .ofNat pad0, pad1 := .ofNat pad1, pad2 := .ofNat pad2,
      padding28 := .ofNat padding28, fillPx := (UInt64.ofNat fillPx).toInt64,
      fillQty := (UInt64.ofNat fillQty).toInt64, tSimRecvNs := (UInt64.ofNat tSimRecvNs).toInt64,
      tSimSendNs := (UInt64.ofNat tSimSendNs).toInt64, reason := (UInt32.ofNat reason).toInt32,
      padTail := (UInt32.ofNat padTail).toInt32 }
  | _ => {}

/-- `memcpy(&w, payload.data(), sizeof(w))`; the callers check the size first. -/
def WireNewOrder.ofBytes (payload : Bytes) : WireNewOrder :=
  ofValues (decodeFields layout payload)

def WireExecReport.ofBytes (payload : Bytes) : WireExecReport :=
  ofValues (decodeFields layout payload)

@[simp] theorem WireNewOrder.toBytes_length (w : WireNewOrder) :
    w.toBytes.length = sizeofWireNewOrder := by
  simp [WireNewOrder.toBytes, WireNewOrder.values, WireNewOrder.layout, sizeofWireNewOrder]

@[simp] theorem WireExecReport.toBytes_length (w : WireExecReport) :
    w.toBytes.length = sizeofWireExecReport := by
  simp [WireExecReport.toBytes, WireExecReport.values, WireExecReport.layout, sizeofWireExecReport]

/-- A struct copied to the wire is read back unchanged, padding included. -/
theorem WireNewOrder.ofBytes_toBytes (w : WireNewOrder) (rest : Bytes) :
    WireNewOrder.ofBytes (w.toBytes ++ rest) = w := by
  have hlayout : (layout.zip w.values).map Prod.fst = layout := rfl
  have h := decodeFields_encodeFields (layout.zip w.values) rest
  rw [hlayout] at h
  rw [WireNewOrder.ofBytes, WireNewOrder.toBytes, h]
  simp [layout, values, ofValues]

theorem WireExecReport.ofBytes_toBytes (w : WireExecReport) (rest : Bytes) :
    WireExecReport.ofBytes (w.toBytes ++ rest) = w := by
  have hlayout : (layout.zip w.values).map Prod.fst = layout := rfl
  have h := decodeFields_encodeFields (layout.zip w.values) rest
  rw [hlayout] at h
  rw [WireExecReport.ofBytes, WireExecReport.toBytes, h]
  simp [layout, values, ofValues]

/-- Byte swap of a 32-bit word: network order on a little-endian host. -/
def htonl (n : Nat) : Nat := ofLeBytes (leBytes 4 n).reverse
def ntohl (n : Nat) : Nat := ofLeBytes (leBytes 4 n).reverse

def packWithLength (data : Bytes) : Bytes :=
  let beLen := htonl (data.length % 2 ^ 32)
  leBytes 4 beLen ++ data

/-- `offset` and `payload` are reference parameters: the result carries their
values after the call next to the returned `bool`. -/
def unpackFrame (buf : Bytes) (offset : Nat) (payload : Bytes) : Bool × Nat × Bytes :=
  if offset + 4 > buf.length then (false, offset, payload)
  else
    let beLen := ofLeBytes ((buf.drop offset).take 4)
    let len := ntohl beLen
    if offset + 4 + len > buf.length then (false, offset, payload)
    else (true, offset + 4 + len, (buf.drop (offset + 4)).take len)

end CppCodes.Source.HftTest
