import Mathlib.Data.Nat.Digits.Defs
import Mathlib.Tactic.Common

/-!
# Byte order and record layout

Fixed-width little-endian words over octets, and records laid out as a sequence
of such words. A layout is the list of field widths in bytes; padding is a field
like any other. Big-endian octets are the reversal.
-/

set_option autoImplicit false

namespace CppCodes.Library

/-- The `width` little-endian octets of `n`; higher octets are dropped. -/
def leBytes : Nat → Nat → List UInt8
  | 0, _ => []
  | width + 1, n => UInt8.ofNat n :: leBytes width (n / 256)

def ofLeBytes (bytes : List UInt8) : Nat := Nat.ofDigits 256 (bytes.map UInt8.toNat)

@[simp] theorem leBytes_length (width n : Nat) : (leBytes width n).length = width := by
  induction width generalizing n with
  | zero => rfl
  | succ width ih => simp [leBytes, ih]

theorem ofLeBytes_cons (b : UInt8) (bytes : List UInt8) :
    ofLeBytes (b :: bytes) = b.toNat + 256 * ofLeBytes bytes := Nat.ofDigits_cons

theorem ofLeBytes_leBytes (width n : Nat) : ofLeBytes (leBytes width n) = n % 256 ^ width := by
  induction width generalizing n with
  | zero => simp [leBytes, ofLeBytes, Nat.mod_one]
  | succ width ih =>
    rw [leBytes, ofLeBytes_cons, ih, Nat.pow_succ, Nat.mul_comm (256 ^ width), Nat.mod_mul]
    simp

theorem ofLeBytes_lt (bytes : List UInt8) : ofLeBytes bytes < 256 ^ bytes.length := by
  have h : ∀ d ∈ bytes.map UInt8.toNat, d < 256 := by
    intro d hd
    obtain ⟨b, -, rfl⟩ := List.mem_map.mp hd
    exact b.toNat_lt
  simpa [ofLeBytes] using Nat.ofDigits_lt_base_pow_length (by decide) h

theorem leBytes_ofLeBytes (bytes : List UInt8) : leBytes bytes.length (ofLeBytes bytes) = bytes := by
  induction bytes with
  | nil => rfl
  | cons b bytes ih =>
    have hb := b.toNat_lt
    have hhead : UInt8.ofNat (b.toNat + 256 * ofLeBytes bytes) = b := by
      apply UInt8.toNat_inj.mp
      simp
    have htail : (b.toNat + 256 * ofLeBytes bytes) / 256 = ofLeBytes bytes := by omega
    rw [List.length_cons, leBytes, ofLeBytes_cons, hhead, htail, ih]

/-- The octets of a record: each field's width with its value. -/
def encodeFields (fields : List (Nat × Nat)) : List UInt8 :=
  fields.flatMap fun field => leBytes field.1 field.2

/-- Read a record back field by field; missing octets read as zero. -/
def decodeFields : List Nat → List UInt8 → List Nat
  | [], _ => []
  | width :: layout, bytes => ofLeBytes (bytes.take width) :: decodeFields layout (bytes.drop width)

@[simp] theorem encodeFields_length (fields : List (Nat × Nat)) :
    (encodeFields fields).length = (fields.map Prod.fst).sum := by
  induction fields with
  | nil => rfl
  | cons field fields ih =>
    rw [encodeFields, List.flatMap_cons, List.length_append, leBytes_length, List.map_cons,
      List.sum_cons, ← ih, encodeFields]

/-- A record is read back whatever bytes follow it, each field modulo its width. -/
theorem decodeFields_encodeFields (fields : List (Nat × Nat)) (rest : List UInt8) :
    decodeFields (fields.map Prod.fst) (encodeFields fields ++ rest) =
      fields.map fun field => field.2 % 256 ^ field.1 := by
  induction fields with
  | nil => rfl
  | cons field fields ih =>
    have hsplit : encodeFields (field :: fields) ++ rest =
        leBytes field.1 field.2 ++ (encodeFields fields ++ rest) := by
      simp [encodeFields, List.append_assoc]
    have htake : (leBytes field.1 field.2 ++ (encodeFields fields ++ rest)).take field.1 =
        leBytes field.1 field.2 := by
      rw [List.take_append_of_le_length (by simp), List.take_of_length_le (by simp)]
    have hdrop : (leBytes field.1 field.2 ++ (encodeFields fields ++ rest)).drop field.1 =
        encodeFields fields ++ rest := by
      rw [List.drop_append_of_le_length (by simp), List.drop_of_length_le (by simp), List.nil_append]
    rw [List.map_cons, decodeFields, hsplit, htake, hdrop, ih, ofLeBytes_leBytes, List.map_cons]

/-- A record is read from its own octets only. -/
theorem decodeFields_take (layout : List Nat) (bytes : List UInt8) :
    decodeFields layout (bytes.take layout.sum) = decodeFields layout bytes := by
  induction layout generalizing bytes with
  | nil => rfl
  | cons width layout ih =>
    have htake : (bytes.take (width + layout.sum)).take width = bytes.take width := by
      rw [List.take_take, Nat.min_eq_left (Nat.le_add_right width layout.sum)]
    have hdrop : (bytes.take (width + layout.sum)).drop width =
        (bytes.drop width).take layout.sum := by
      rw [List.drop_take, Nat.add_sub_cancel_left]
    rw [List.sum_cons, decodeFields, htake, hdrop, ih, decodeFields]

end CppCodes.Library
