import CppCodes.Source.Atoi.Reading

/-!
# The decimal readers

`myAtoi` saturates and does not overflow on the way. The spelling of atoi_1.cpp
sees only as many octets as the length has in an `int`; where that leaves
out a part of the number that matters, the two disagree.
-/

set_option autoImplicit false

namespace CppCodes.Guarantees.DecimalReaders

open CppCodes.Library
open CppCodes.Source.Atoi

theorem clamp_range (v : Int) : -2 ^ 31 ≤ clamp v ∧ clamp v < 2 ^ 31 := by
  rw [clamp, intMax_toInt, intMin_toInt]
  omega

theorem myAtoi_reading (A : IntArith) (s : StringView) (r : Reading s.bytes) :
    myAtoi A s = some (Int32.ofInt (clamp r.value)) :=
  read_eq A sizeSpelling_sound (List.append_nil s.bytes).symm (Int.toNat_natCast _) r

/-- With `A` the checked arithmetic the result says that nothing overflowed. -/
theorem my_atoi_saturates (A : IntArith) (s : StringView) :
    Nonempty (Reading s.bytes) ∧ ∀ r : Reading s.bytes,
      (∃ result, myAtoi A s = some result ∧ result.toInt = clamp r.value) ∧
      (r.digits = [] → myAtoi A s = some 0) := by
  refine ⟨⟨reading s.bytes⟩, ?_⟩
  intro r
  have hrange := clamp_range r.value
  refine ⟨⟨_, myAtoi_reading A s r, IntArith.toInt_ofInt hrange.1 hrange.2⟩, ?_⟩
  intro hempty
  have hzero : r.value = 0 := by simp [Reading.value, hempty]
  rw [myAtoi_reading A s r, hzero]
  rfl

example : myAtoi .checked ⟨" -2147483648th".toList.map Char.toUInt8, by decide⟩ =
    some intMin := by decide

/-- The octets that `int n = s.size()` lets the loops see. -/
def seen (s : StringView) : Nat := (Int32.ofNat s.bytes.length).toInt.toNat

/-- The largest magnitude that a sign leaves room for. -/
def limitOf (sign : Bytes) : Nat := if sign = ['-'.toUInt8] then 2 ^ 31 else 2 ^ 31 - 1

theorem seen_le (s : StringView) : seen s ≤ s.bytes.length := by
  simp only [seen, Int32.toInt_ofNat', Int32.size, Int.bmod_def]
  split <;> omega

theorem myAtoi₁_reading (A : IntArith) (s : StringView) (r : Reading s.bytes) :
    myAtoi₁ A s = some (Int32.ofInt (clamp (r.take (seen s)).value)) := by
  have hwindow : (seen s) = (s.bytes.take (seen s)).length := by
    rw [List.length_take, Nat.min_eq_left (seen_le s)]
  exact read_eq A intSpelling_sound (List.take_append_drop (seen s) s.bytes).symm hwindow
    (r.take (seen s))

/-- A cut sign leaves no digits, so it makes no difference. -/
theorem take_value {text : Bytes} (r : Reading text) (k : Nat) :
    (r.take k).value =
      signFactor r.sign * decimal (r.digits.take (k - r.spaces.length - r.sign.length)) := by
  change signFactor (r.sign.take (k - r.spaces.length)) * _ = _
  by_cases hsign : r.sign.length ≤ k - r.spaces.length
  · rw [List.take_of_length_le hsign]
    rfl
  · have hnone : k - r.spaces.length - r.sign.length = 0 := by omega
    have hdigits : (r.take k).digits = [] := by
      change r.digits.take (k - r.spaces.length - r.sign.length) = []
      rw [hnone, List.take_zero]
    simp [hnone, hdigits]

theorem clamp_eq_iff (sign : Bytes) {a b : Nat} (hab : a ≤ b) :
    clamp (signFactor sign * a) = clamp (signFactor sign * b) ↔ a = b ∨ limitOf sign ≤ a := by
  unfold signFactor limitOf
  simp only [clamp, intMax_toInt, intMin_toInt]
  split
  · omega
  · omega

/-- The readers agree when the octets seen hold the whole number, when its digits
are zeros, or when the digits seen are at the limit already. -/
theorem my_atois_agree_iff (A : IntArith) (s : StringView) (r : Reading s.bytes) :
    myAtoi₁ A s = myAtoi A s ↔
      r.stop ≤ seen s ∨ decimal r.digits = 0 ∨
        limitOf r.sign ≤
          decimal (r.digits.take (seen s - r.spaces.length - r.sign.length)) := by
  have hclamp (v w : Int) :
      Int32.ofInt (clamp v) = Int32.ofInt (clamp w) ↔ clamp v = clamp w := by
    have hv := clamp_range v
    have hw := clamp_range w
    rw [← Int32.toInt_inj, IntArith.toInt_ofInt hv.1 hv.2, IntArith.toInt_ofInt hw.1 hw.2]
  have hsplit := List.take_append_drop (seen s - r.spaces.length - r.sign.length) r.digits
  have hgrow := decimal_le_append
    (r.digits.take (seen s - r.spaces.length - r.sign.length))
    (r.digits.drop (seen s - r.spaces.length - r.sign.length))
  rw [hsplit] at hgrow
  rw [myAtoi₁_reading, myAtoi_reading A s r, Option.some.injEq, hclamp, take_value, Reading.value,
    clamp_eq_iff r.sign hgrow, decimal_take_eq_iff, or_assoc]
  unfold Reading.stop
  by_cases hempty : r.digits = []
  · simp [hempty]
  · have hpos := List.length_pos_iff.mpr hempty
    refine or_congr ?_ Iff.rfl
    omega

/-- Lengths that fit an `int` are no trouble. -/
theorem my_atois_agree_of_short (A : IntArith) (s : StringView) (h : s.bytes.length < 2 ^ 31) :
    myAtoi₁ A s = myAtoi A s := by
  have hbound : (intSpelling.bound s.bytes.length).toNat = s.bytes.length := by
    change (Int32.ofNat s.bytes.length).toInt.toNat = s.bytes.length
    rw [Int32.toInt_ofNat_of_lt h, Int.toNat_natCast]
  rw [myAtoi_reading A s (reading s.bytes)]
  exact read_eq A intSpelling_sound (List.append_nil s.bytes).symm hbound (reading s.bytes)

/-- A one, followed by letters. -/
def oneThenLetters (letters : Nat) (h : letters < 2 ^ 64 - 1) : StringView where
  bytes := '1'.toUInt8 :: List.replicate letters 'a'.toUInt8
  size_lt := by
    rw [List.length_cons, List.length_replicate]
    omega

def oneThenLettersReading (letters : Nat) (h : letters < 2 ^ 64 - 1) :
    Reading (oneThenLetters letters h).bytes where
  spaces := []
  sign := []
  digits := ['1'.toUInt8]
  rest := List.replicate letters 'a'.toUInt8
  split := rfl
  white := by simp
  signed := Or.inl rfl
  decimal := List.all_eq_true.mp (by decide)
  spacesEnd c hc := by
    cases hc
    decide
  signEnd _ c hc := by
    cases hc
    decide
  digitsEnd c hc := by
    cases letters with
    | zero => cases hc
    | succ letters =>
      cases hc
      decide

/-- At 2^31 octets the length becomes the smallest `int`, and no loop runs. -/
theorem half_range_view_differs :
    myAtoi₁ .checked (oneThenLetters (2 ^ 31 - 1) (by decide)) = some 0 ∧
      myAtoi .checked (oneThenLetters (2 ^ 31 - 1) (by decide)) = some 1 := by
  have hseen : seen (oneThenLetters (2 ^ 31 - 1) (by decide)) = 0 := by
    rw [seen, oneThenLetters, List.length_cons, List.length_replicate]
    decide
  constructor
  · rw [myAtoi₁_reading .checked _ (oneThenLettersReading _ _), hseen, take_value]
    rfl
  · rw [myAtoi_reading .checked _ (oneThenLettersReading _ _)]
    rfl

end CppCodes.Guarantees.DecimalReaders
