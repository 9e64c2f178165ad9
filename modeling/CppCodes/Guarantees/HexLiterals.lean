import CppCodes.Library.Base16
import CppCodes.Source.ParamPack.HexLiterals

/-!
# Hexadecimal literals and the bytes they spell

Both operators compute the byte as an `int`. The one for `std::string` casts it to `char`;
the other gives it as a template argument of type `char`, which has no value above 127.
-/

set_option autoImplicit false

namespace CppCodes.Guarantees.HexLiterals

open CppCodes.Library.Base16
open CppCodes.Source.ParamPack

def text (s : String) : List Int8 := s.toList.map char

def lower : List Int8 := text "0123456789abcdef"

def upper : List Int8 := text "0123456789ABCDEF"

/-- The character is a way to write the digit. -/
def Stands (c : Int8) (d : Nat) : Prop := lower[d]? = some c ∨ upper[d]? = some c

/-- The literal spells the bytes, in any mix of cases. -/
def Spells (bytes : List UInt8) (literal : List Int8) : Prop :=
  ∃ digits, literal = char '0' :: char 'x' :: digits ∧ Pairs Stands bytes digits

def chars (bytes : List UInt8) : List Int8 := bytes.map UInt8.toInt8

structure RoundTrip (bytes : List UInt8) (literal : List Int8) : Prop where
  accepted : accepts literal = true
  hex_eq : hex literal = some (chars bytes)
  hex2_eq : (hex2 literal).map StringHolder.toStdString = some (chars bytes)

/-! ## One digit, one byte -/

theorem hexdigit_lower : ∀ d < 16, hexdigit (lower.getD d 0) = Int32.ofNat d := by decide

theorem hexdigit_upper : ∀ d < 16, hexdigit (upper.getD d 0) = Int32.ofNat d := by decide

theorem Stands.lt {c : Int8} {d : Nat} (h : Stands c d) : d < 16 := by
  rcases h with h | h
  · exact (List.getElem?_eq_some_iff.mp h).1
  · exact (List.getElem?_eq_some_iff.mp h).1

theorem Stands.hexdigit {c : Int8} {d : Nat} (h : Stands c d) : hexdigit c = Int32.ofNat d := by
  have hd := h.lt
  rcases h with h | h
  · have hc : lower.getD d 0 = c := by simp [h]
    rw [← hc, hexdigit_lower d hd]
  · have hc : upper.getD d 0 = c := by simp [h]
    rw [← hc, hexdigit_upper d hd]

theorem digit_ne_invalid : ∀ d < 16, Int32.ofNat d ≠ -1 := by decide

theorem join_digits : ∀ h < 16, ∀ l < 16,
    Int32.ofNat h <<< 4 ||| Int32.ofNat l = Int32.ofNat (16 * h + l) := by
  decide

theorem ofNat_byte (b : UInt8) : Int8.ofNat b.toNat = b.toInt8 := by
  change (UInt8.ofNat b.toNat).toInt8 = b.toInt8
  rw [UInt8.ofNat_toNat]

/-- The two characters of a byte, wherever they stand. -/
theorem hexPair_eq {b : UInt8} {high low : Int8} (hhigh : Stands high (b.toNat / 16))
    (hlow : Stands low (b.toNat % 16)) (before after : List Int8) :
    hexPair (before ++ high :: low :: after) before.length = some (Int32.ofNat b.toNat) := by
  have hjoin := join_digits (b.toNat / 16) hhigh.lt (b.toNat % 16) hlow.lt
  rw [Nat.div_add_mod] at hjoin
  simp [hexPair, hhigh.hexdigit, hlow.hexdigit, hjoin]

theorem byte_toInt {b : UInt8} : (Int32.ofNat b.toNat).toInt = b.toNat := by
  have hb := b.toNat_lt
  apply Int32.toInt_ofNat_of_lt
  omega

theorem charArgument_byte (b : UInt8) :
    charArgument (Int32.ofNat b.toNat).toInt = if b ≤ 0x7f then some b.toInt8 else none := by
  have hle : b ≤ 0x7f ↔ b.toNat ≤ 127 := UInt8.le_iff_toNat_le
  rw [byte_toInt, charArgument]
  by_cases hb : b.toNat ≤ 127
  · have hrange : -128 ≤ (b.toNat : Int) ∧ (b.toNat : Int) ≤ 127 := by omega
    rw [if_pos hrange, if_pos (hle.mpr hb), Int8.ofInt_eq_ofNat, ofNat_byte]
  · rw [if_neg (by omega), if_neg fun h => hb (hle.mp h)]

/-! ## The two operators -/

theorem hexFrom_eq {bytes : List UInt8} {digits : List Int8} (h : Pairs Stands bytes digits)
    (before result : List Int8) :
    hexFrom (before ++ digits) before.length result = some (result ++ chars bytes) := by
  induction h generalizing before result with
  | nil =>
    rw [hexFrom]
    simp [chars]
  | @cons b bytes high low digits hhigh hlow hrest ih =>
    have hin : before.length < (before ++ high :: low :: digits).length := by simp
    have hnext := ih (before ++ [high, low]) (result ++ [b.toInt8])
    rw [hexFrom, if_pos hin, hexPair_eq hhigh hlow]
    simpa [chars, Int32.toInt8_ofNat', ofNat_byte] using hnext

theorem arguments_eq {bytes : List UInt8} {digits : List Int8} (h : Pairs Stands bytes digits)
    (before : List Int8) :
    ((List.range bytes.length).mapM fun i =>
      (hexPair (before ++ digits) (2 * i + before.length)).bind fun v => charArgument v.toInt) =
    bytes.mapM fun b => if b ≤ 0x7f then some b.toInt8 else none := by
  induction h generalizing before with
  | nil => rfl
  | @cons b bytes high low digits hhigh hlow hrest ih =>
    have hlater := ih (before ++ [high, low])
    have hshift : ∀ i, 2 * (i + 1) + before.length = 2 * i + (before ++ [high, low]).length := by
      intro i
      simp
      omega
    rw [List.length_cons, List.range_succ_eq_map, List.mapM_cons, List.mapM_map, List.mapM_cons]
    simp only [Function.comp_def, Nat.succ_eq_add_one, hshift, Nat.mul_zero, Nat.zero_add]
    rw [hexPair_eq hhigh hlow, Option.bind_some, charArgument_byte]
    rw [List.append_assoc] at hlater
    rw [← hlater]
    rfl

theorem arguments_iff (bytes : List UInt8) (cs : List Int8) :
    (bytes.mapM fun b => if b ≤ 0x7f then some b.toInt8 else none) = some cs ↔
      (∀ b ∈ bytes, b ≤ 0x7f) ∧ cs = chars bytes := by
  induction bytes generalizing cs with
  | nil => simp [chars, eq_comm]
  | cons b bytes ih =>
    rw [List.mapM_cons]
    by_cases hb : b ≤ 0x7f
    · rw [if_pos hb]
      simp only [Option.bind_eq_bind, Option.bind_some, Option.bind_eq_some_iff, ih, List.mem_cons,
        forall_eq_or_imp, hb, true_and]
      constructor
      · rintro ⟨later, ⟨hsmall, rfl⟩, hcs⟩
        exact ⟨hsmall, (Option.some.inj hcs).symm⟩
      · rintro ⟨hsmall, rfl⟩
        exact ⟨chars bytes, ⟨hsmall, rfl⟩, rfl⟩
    · simp [hb]

theorem accepts_spelling {bytes : List UInt8} {digits : List Int8} (h : Pairs Stands bytes digits) :
    accepts (char '0' :: char 'x' :: digits) = true := by
  have hdigits : ∀ c ∈ digits, hexdigit c ≠ -1 := by
    intro c hc
    obtain ⟨d, hd, hstands⟩ := h.exists_of_mem hc
    rw [hstands.hexdigit]
    exact digit_ne_invalid d hd
  have heven : (digits.length + 2) % 2 = 0 := by
    rw [h.length_eq]
    omega
  simpa [accepts, heven] using hdigits

theorem literals_round_trip_iff {bytes : List UInt8} {literal : List Int8}
    (spelled : Spells bytes literal) : RoundTrip bytes literal ↔ ∀ b ∈ bytes, b ≤ 0x7f := by
  obtain ⟨digits, rfl, hpairs⟩ := spelled
  have haccepted := accepts_spelling hpairs
  have hhex : hex (char '0' :: char 'x' :: digits) = some (chars bytes) := by
    rw [hex, if_pos haccepted]
    exact hexFrom_eq hpairs [char '0', char 'x'] []
  have hcount : (char '0' :: char 'x' :: digits).length / 2 - 1 = bytes.length := by
    simp only [List.length_cons, hpairs.length_eq]
    omega
  have hhex2 : hex2 (char '0' :: char 'x' :: digits) =
      (bytes.mapM fun b => if b ≤ 0x7f then some b.toInt8 else none).map StringHolder.mk := by
    rw [hex2, if_pos haccepted, hcount]
    exact congrArg _ (arguments_eq hpairs [char '0', char 'x'])
  constructor
  · intro h
    have htwo := h.hex2_eq
    rw [hhex2, Option.map_map, Option.map_eq_some_iff] at htwo
    obtain ⟨cs, hcs, -⟩ := htwo
    exact ((arguments_iff bytes cs).mp hcs).1
  · intro hsmall
    refine ⟨haccepted, hhex, ?_⟩
    rw [hhex2, (arguments_iff bytes (chars bytes)).mpr ⟨hsmall, rfl⟩]
    simp

/-- A digit of each case and one that has no case. -/
theorem literals_round_trip_iff_mixed :
    Spells [0x48, 0x6f, 0x4a] (text "0x486F4a") ∧ RoundTrip [0x48, 0x6f, 0x4a] (text "0x486F4a") := by
  have spelled : Spells [0x48, 0x6f, 0x4a] (text "0x486F4a") :=
    ⟨text "486F4a", rfl, .cons (Or.inl rfl) (Or.inl rfl) (.cons (Or.inl rfl) (Or.inr rfl)
      (.cons (Or.inl rfl) (Or.inl rfl) .nil))⟩
  have hsmall : ∀ b ∈ [(0x48 : UInt8), 0x6f, 0x4a], b ≤ 0x7f := by
    simp only [List.mem_cons, List.not_mem_nil, or_false]
    rintro b (rfl | rfl | rfl) <;> decide
  exact ⟨spelled, (literals_round_trip_iff spelled).mpr hsmall⟩

/-- `0x80_hex` has one byte and `0x80_hex2` does not compile. -/
theorem byte_above_127_has_no_value :
    Spells [0x80] (text "0x80") ∧ hex (text "0x80") = some [-128] ∧ hex2 (text "0x80") = none ∧
      ¬ RoundTrip [0x80] (text "0x80") := by
  have pairs : Pairs Stands [0x80] (text "80") := .cons (Or.inl rfl) (Or.inl rfl) .nil
  have hnone : hex2 (text "0x80") = none := by decide
  have hhex : hex (text "0x80") = some [-128] := by
    rw [hex, if_pos (by decide)]
    exact hexFrom_eq pairs [char '0', char 'x'] []
  refine ⟨⟨text "80", rfl, pairs⟩, hhex, hnone, fun h => ?_⟩
  have htwo := h.hex2_eq
  rw [hnone] at htwo
  cases htwo

end CppCodes.Guarantees.HexLiterals
