import Mathlib.Data.Nat.Digits.Lemmas
import Mathlib.Tactic.Ring

/-!
# Decimal numerals in octets

`decimal` is the number that a list of ASCII digits denotes, read from the left, and `numeral`
the shortest list that denotes a number.
-/

set_option autoImplicit false

namespace CppCodes.Library

/-- `std::isdigit` in the C locale. -/
def isDigit (c : UInt8) : Bool := '0'.toUInt8 ≤ c && c ≤ '9'.toUInt8

def digitValue (c : UInt8) : Nat := c.toNat - 48

def decimal (digits : List UInt8) : Nat := Nat.ofDigits 10 (digits.reverse.map digitValue)

theorem isDigit_iff {c : UInt8} : isDigit c = true ↔ 48 ≤ c.toNat ∧ c.toNat ≤ 57 := by
  simp only [isDigit, Bool.and_eq_true, decide_eq_true_eq, UInt8.le_iff_toNat_le]
  rfl

@[simp] theorem decimal_nil : decimal [] = 0 := rfl

theorem decimal_snoc (digits : List UInt8) (c : UInt8) :
    decimal (digits ++ [c]) = 10 * decimal digits + digitValue c := by
  simp [decimal, Nat.ofDigits_cons, Nat.add_comm]

theorem decimal_append (front back : List UInt8) :
    decimal (front ++ back) = decimal front * 10 ^ back.length + decimal back := by
  simp only [decimal, List.reverse_append, List.map_append, Nat.ofDigits_append, List.length_map,
    List.length_reverse]
  ring

theorem decimal_le_append (front back : List UInt8) :
    decimal front ≤ decimal (front ++ back) := by
  have hpower : 1 ≤ 10 ^ back.length := Nat.one_le_pow _ _ (by omega)
  have hshift : decimal front * 1 ≤ decimal front * 10 ^ back.length :=
    Nat.mul_le_mul_left _ hpower
  rw [decimal_append]
  omega

/-- The first digits alone denote less, unless all of them are zero. -/
theorem decimal_take_eq_iff (digits : List UInt8) (n : Nat) :
    decimal (digits.take n) = decimal digits ↔ digits.length ≤ n ∨ decimal digits = 0 := by
  by_cases hwhole : digits.length ≤ n
  · simp [List.take_of_length_le hwhole, hwhole]
  · have hback : (digits.drop n).length ≠ 0 := by
      rw [List.length_drop]
      omega
    have hpower : 10 ≤ 10 ^ (digits.drop n).length := Nat.le_self_pow hback 10
    have hshift : decimal (digits.take n) * 10 ≤
        decimal (digits.take n) * 10 ^ (digits.drop n).length := Nat.mul_le_mul_left _ hpower
    have hsplit := decimal_append (digits.take n) (digits.drop n)
    rw [List.take_append_drop] at hsplit
    omega

theorem decimal_lt {digits : List UInt8} (h : ∀ c ∈ digits, isDigit c = true) :
    decimal digits < 10 ^ digits.length := by
  have hbound := Nat.ofDigits_lt_base_pow_length (b := 10) (by omega)
    (l := digits.reverse.map digitValue) (by
      intro d hd
      obtain ⟨c, hc, rfl⟩ := List.mem_map.mp hd
      have hrange := isDigit_iff.mp (h c (List.mem_reverse.mp hc))
      rw [digitValue]
      omega)
  rwa [List.length_map, List.length_reverse] at hbound

theorem decimal_ge {c : UInt8} (digits : List UInt8) (hc : isDigit c = true)
    (hzero : c ≠ '0'.toUInt8) : 10 ^ digits.length ≤ decimal (c :: digits) := by
  have hrange := isDigit_iff.mp hc
  have hcode : c.toNat ≠ 48 := fun h => hzero (UInt8.toNat_inj.mp h)
  have hfirst : 1 ≤ decimal [c] := by
    simp only [decimal, digitValue, List.reverse_singleton, List.map_singleton,
      Nat.ofDigits_singleton]
    omega
  have hsplit := decimal_append [c] digits
  have hshift : 1 * 10 ^ digits.length ≤ decimal [c] * 10 ^ digits.length :=
    Nat.mul_le_mul_right _ hfirst
  rw [List.singleton_append] at hsplit
  omega

/-! ## Writing a number -/

def digitOctet (d : Nat) : UInt8 := UInt8.ofNat (48 + d)

/-- What `operator<<` writes for an unsigned number. -/
def numeral (n : Nat) : List UInt8 :=
  if n = 0 then ['0'.toUInt8] else ((Nat.digits 10 n).map digitOctet).reverse

/-- What it writes for a signed one. -/
def signedNumeral (v : Int) : List UInt8 :=
  if v < 0 then '-'.toUInt8 :: numeral v.natAbs else numeral v.natAbs

theorem toNat_digitOctet {d : Nat} (hd : d < 10) : (digitOctet d).toNat = 48 + d :=
  UInt8.toNat_ofNat_of_lt' (Nat.lt_trans (Nat.add_lt_add_left hd 48) (by decide))

theorem isDigit_digitOctet {d : Nat} (hd : d < 10) : isDigit (digitOctet d) = true := by
  rw [isDigit_iff, toNat_digitOctet hd]
  omega

theorem digitValue_digitOctet {d : Nat} (hd : d < 10) : digitValue (digitOctet d) = d := by
  rw [digitValue, toNat_digitOctet hd]
  omega

theorem numeral_zero : numeral 0 = ['0'.toUInt8] := rfl

theorem numeral_of_ne {n : Nat} (hn : n ≠ 0) :
    numeral n = ((Nat.digits 10 n).map digitOctet).reverse := if_neg hn

theorem isDigit_numeral (n : Nat) : ∀ c ∈ numeral n, isDigit c = true := by
  intro c hc
  by_cases hn : n = 0
  · rw [hn, numeral_zero, List.mem_singleton] at hc
    rw [hc]
    rfl
  · rw [numeral_of_ne hn, List.mem_reverse] at hc
    obtain ⟨d, hd, rfl⟩ := List.mem_map.mp hc
    exact isDigit_digitOctet (Nat.digits_lt_base (by decide) hd)

theorem numeral_ne_nil (n : Nat) : numeral n ≠ [] := by
  by_cases hn : n = 0
  · rw [hn]
    decide
  · rw [numeral_of_ne hn]
    simpa [Nat.digits_eq_nil_iff_eq_zero] using hn

/-- Reading back. -/
theorem decimal_numeral (n : Nat) : decimal (numeral n) = n := by
  by_cases hn : n = 0
  · rw [hn]
    rfl
  · have hdigits : (Nat.digits 10 n).map (digitValue ∘ digitOctet) = Nat.digits 10 n := by
      have hsame : ∀ d ∈ Nat.digits 10 n, (digitValue ∘ digitOctet) d = id d := fun d hd =>
        digitValue_digitOctet (Nat.digits_lt_base (by decide) hd)
      rw [List.map_congr_left hsame, List.map_id]
    rw [decimal, numeral_of_ne hn, List.reverse_reverse, List.map_map, hdigits, Nat.ofDigits_digits]

/-- No zero that could be left out. -/
theorem head?_numeral {n : Nat} (hn : n ≠ 0) : (numeral n).head? ≠ some '0'.toUInt8 := by
  have hne : Nat.digits 10 n ≠ [] := Nat.digits_ne_nil_iff_ne_zero.mpr hn
  have hlast := Nat.getLast_digit_ne_zero 10 hn
  have hlt : (Nat.digits 10 n).getLast hne < 10 :=
    Nat.digits_lt_base (by decide) (List.getLast_mem hne)
  rw [numeral_of_ne hn, List.head?_reverse, List.getLast?_map, List.getLast?_eq_some_getLast hne,
    Option.map_some]
  intro hzero
  have hcode := congrArg UInt8.toNat (Option.some.inj hzero)
  rw [toNat_digitOctet hlt] at hcode
  have hfirst : '0'.toUInt8.toNat = 48 := rfl
  omega

end CppCodes.Library
