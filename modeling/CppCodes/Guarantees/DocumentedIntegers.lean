import CppCodes.Source.Others.Iterator
import Mathlib.Data.List.TakeWhile

/-!
# The documented integers

The comment at the head of others/iterator.cpp describes the strings that `convert`
accepts; `Numeral` is that description. The code departs from it in three kinds
of strings (`Regular`), and one of them is an overflow: the limit is tested after
the sum, which the tenth digit can take out of the range of `int`.
-/

set_option autoImplicit false

namespace CppCodes.Guarantees.DocumentedIntegers

open CppCodes.Library
open CppCodes.Source.Others.Iterator

/-- Optional spaces, an optional sign, digits without a leading zero, optional
spaces; the value is in the range. -/
structure Numeral (str : Bytes) where
  before : Bytes
  sign : Bytes
  digits : Bytes
  after : Bytes
  split : str = before ++ (sign ++ (digits ++ after))
  blankBefore : ∀ c ∈ before, c = ' '.toUInt8
  signed : sign = [] ∨ sign = ['+'.toUInt8] ∨ sign = ['-'.toUInt8]
  decimal : ∀ c ∈ digits, isDigit c = true
  shape : digits = ['0'.toUInt8] ∨ (digits ≠ [] ∧ digits.head? ≠ some '0'.toUInt8)
  blankAfter : ∀ c ∈ after, c = ' '.toUInt8
  range : Library.decimal digits ≤ 1000000000

def Numeral.value {str : Bytes} (n : Numeral str) : Int :=
  (if n.sign = ['-'.toUInt8] then -1 else 1) * Library.decimal n.digits

/-- `convert` does on the string what the comment says. -/
structure Conforms (str : Bytes) : Prop where
  accepts : ∀ n : Numeral str, ∃ v, convert .checked str = some (some v) ∧ v.toInt = n.value
  refuses : IsEmpty (Numeral str) → convert .checked str = some none

/-- None of: a numeral with spaces behind it, two signs before an accepted
number, a run of digits that overflows. -/
structure Regular (str : Bytes) : Prop where
  noBlankEnd : ∀ n : Numeral str, n.after = []
  oneSign : ¬ (['-'.toUInt8, '+'.toUInt8] <+: unblank str ∧ Accepted (body str))
  noOverflow : ¬ Overflow (digitRun str)

/-- The loop computes in `int`s, returns what it read, and refuses what is too large. -/
structure Safe (str : Bytes) : Prop where
  fits : convert .checked str ≠ none
  magnitude : ∀ v, convert .checked str = some (some v) →
    (∀ c ∈ body str, isDigit c = true) ∧ v.toInt.natAbs = decimal (body str) ∧
      decimal (body str) ≤ 1000000000
  refuses : 1000000000 < decimal (digitRun str) → convert .checked str = some none

theorem Accepted.digitRun {str : Bytes} (h : Accepted (body str)) : digitRun str = body str :=
  List.takeWhile_eq_self_iff.mpr h.decimal

theorem convert_eq_none_iff (str : Bytes) :
    convert .checked str = none ↔ Overflow (digitRun str) := by
  have hresult := convert_converted str
  generalize convert .checked str = result at hresult
  cases hresult with
  | overflow large => exact ⟨fun _ => large, fun _ => rfl⟩
  | value v accepted denoted =>
    have hfits : ¬ Overflow (digitRun str) := by
      rw [Accepted.digitRun accepted]
      exact not_overflow_of_le accepted.range
    simp [hfits]
  | refused noOverflow notAccepted =>
    have hfits : ¬ Overflow (digitRun str) := noOverflow
    simp [hfits]

theorem convert_safe_iff (str : Bytes) : Safe str ↔ ¬ Overflow (digitRun str) := by
  constructor
  · intro h hover
    exact h.fits ((convert_eq_none_iff str).mpr hover)
  · intro hover
    have hfits := (convert_eq_none_iff str).not.mpr hover
    refine ⟨hfits, ?_, ?_⟩
    · intro v hv
      have hresult := convert_converted str
      rw [hv] at hresult
      cases hresult with
      | value _ accepted denoted =>
        refine ⟨accepted.decimal, ?_, accepted.range⟩
        split at denoted <;> omega
    · intro hlarge
      have hresult := convert_converted str
      generalize convert .checked str = result at hresult hfits ⊢
      cases hresult with
      | overflow large => exact absurd rfl hfits
      | value v accepted denoted =>
        have hrange := accepted.range
        rw [Accepted.digitRun accepted] at hlarge
        omega
      | refused noOverflow notAccepted => rfl

/-- The last sum is 4294967345 before its `- '0'`; a processor that wraps accepts the
string as 1. -/
theorem ten_digits_overflow :
    ¬ Safe ("4294967297".toList.map Char.toUInt8) ∧
      convert .wrapping ("4294967297".toList.map Char.toUInt8) = some (some 1) := by
  have hnone : convert .checked ("4294967297".toList.map Char.toUInt8) = none := by decide
  exact ⟨fun h => h.fits hnone, by decide⟩

/-! ## The grammar -/

theorem unblank_append {before rest : Bytes} (hbefore : ∀ c ∈ before, c = ' '.toUInt8)
    (hrest : rest.head? ≠ some ' '.toUInt8) : unblank (before ++ rest) = rest := by
  have hblank : ∀ c ∈ before, (c == ' '.toUInt8) = true := by
    intro c hc
    simp [hbefore c hc]
  rw [unblank, List.dropWhile_append_of_pos hblank]
  cases rest with
  | nil => rfl
  | cons c rest =>
    have hc : c ≠ ' '.toUInt8 := fun h => hrest (by simp [h])
    simp [hc]

/-- What is behind the blanks of a numeral, and what the loop gets of it. -/
theorem Numeral.parts {str : Bytes} (n : Numeral str) :
    unblank str = n.sign ++ (n.digits ++ n.after) ∧ body str = n.digits ++ n.after ∧
      (isNegative str = true ↔ n.sign = ['-'.toUInt8]) ∧
      ¬ ['-'.toUInt8, '+'.toUInt8] <+: unblank str := by
  obtain ⟨d, digits, hdigits⟩ : ∃ d digits, n.digits = d :: digits := by
    cases hcase : n.digits with
    | nil =>
      obtain h | h := n.shape
      · simp [hcase] at h
      · exact absurd hcase h.1
    | cons d digits => exact ⟨d, digits, rfl⟩
  have hdigit := n.decimal d (by simp [hdigits])
  have hother {c : UInt8} (hc : isDigit c = false) : d ≠ c := by
    intro h
    rw [h, hc] at hdigit
    cases hdigit
  have hspace : d ≠ ' '.toUInt8 := hother (by decide)
  have hminus : d ≠ '-'.toUInt8 := hother (by decide)
  have hplus : d ≠ '+'.toUInt8 := hother (by decide)
  have hsigns : '+'.toUInt8 ≠ '-'.toUInt8 ∧ '+'.toUInt8 ≠ ' '.toUInt8 ∧
      '-'.toUInt8 ≠ ' '.toUInt8 := by decide
  have hrest : (n.sign ++ (n.digits ++ n.after)).head? ≠ some ' '.toUInt8 := by
    obtain h | h | h := n.signed <;> simp [h, hdigits, hspace, hsigns]
  have hunblank : unblank str = n.sign ++ (n.digits ++ n.after) := by
    conv_lhs => rw [n.split]
    exact unblank_append n.blankBefore hrest
  refine ⟨hunblank, ?_, ?_, ?_⟩
  · rw [body, hunblank]
    obtain h | h | h := n.signed <;> simp [h, hdigits, stripSign, hminus, hplus, hsigns]
  · rw [isNegative, hunblank]
    obtain h | h | h := n.signed <;> simp [h, hdigits, hminus, hsigns]
  · rw [hunblank]
    obtain h | h | h := n.signed <;>
      simp [h, hdigits, hminus.symm, hplus.symm, hsigns.1.symm]

theorem stripSign_cases (sign : UInt8) (rest : Bytes) :
    rest = sign :: stripSign sign rest ∨ stripSign sign rest = rest := by
  cases rest with
  | nil => exact Or.inr rfl
  | cons c rest =>
    by_cases hc : c = sign
    · exact Or.inl (by simp [stripSign, hc])
    · exact Or.inr (by simp [stripSign, hc])

/-- A number that the loop takes, behind one sign at most, makes the string a numeral. -/
theorem numeral_of_accepted {str : Bytes} (accepted : Accepted (body str))
    (oneSign : ¬ ['-'.toUInt8, '+'.toUInt8] <+: unblank str) :
    Nonempty (Numeral str) := by
  obtain ⟨sign, hsign, hunblank⟩ : ∃ sign : Bytes,
      (sign = [] ∨ sign = ['+'.toUInt8] ∨ sign = ['-'.toUInt8]) ∧
      unblank str = sign ++ body str := by
    obtain hminus | hminus := stripSign_cases '-'.toUInt8 (unblank str)
    · obtain hplus | hplus := stripSign_cases '+'.toUInt8 (stripSign '-'.toUInt8 (unblank str))
      · refine absurd ?_ oneSign
        rw [hminus, hplus]
        exact ⟨body str, rfl⟩
      · refine ⟨['-'.toUInt8], Or.inr (Or.inr rfl), ?_⟩
        rw [body, hplus]
        exact hminus
    · obtain hplus | hplus := stripSign_cases '+'.toUInt8 (stripSign '-'.toUInt8 (unblank str))
      · refine ⟨['+'.toUInt8], Or.inr (Or.inl rfl), ?_⟩
        rw [hminus] at hplus
        rw [body, hminus]
        exact hplus
      · refine ⟨[], Or.inl rfl, ?_⟩
        rw [body, hplus, hminus, List.nil_append]
  have hsplit : str = str.takeWhile (fun c => c == ' '.toUInt8) ++ unblank str :=
    List.takeWhile_append_dropWhile.symm
  refine ⟨⟨str.takeWhile fun c => c == ' '.toUInt8, sign, body str, [], ?_, ?_, hsign,
    accepted.decimal, ?_, by simp, accepted.range⟩⟩
  · rw [List.append_nil, ← hunblank]
    exact hsplit
  · intro c hc
    simpa using List.mem_takeWhile_imp hc
  · by_cases hzero : (body str).head? = some '0'.toUInt8
    · exact Or.inl (accepted.zero hzero)
    · exact Or.inr ⟨accepted.nonempty, hzero⟩

/-- A numeral with nothing behind it is a number for the loop. -/
theorem Numeral.accepted {str : Bytes} (n : Numeral str) (hafter : n.after = []) :
    Accepted (body str) ∧ Library.decimal (body str) = Library.decimal n.digits := by
  have hbody := n.parts.2.1
  rw [hafter, List.append_nil] at hbody
  rw [hbody]
  refine ⟨⟨?_, n.decimal, ?_, n.range⟩, rfl⟩
  · obtain h | h := n.shape
    · simp [h]
    · exact h.1
  · intro hzero
    obtain h | h := n.shape
    · exact h
    · exact absurd hzero h.2

theorem convert_conforms_iff (str : Bytes) : Conforms str ↔ Regular str := by
  have hresult := convert_converted str
  constructor
  · intro h
    refine ⟨?_, ?_, ?_⟩
    · intro n
      obtain ⟨v, hv, -⟩ := h.accepts n
      rw [hv] at hresult
      cases hresult with
      | value _ accepted _ =>
        cases hafter : n.after with
        | nil => rfl
        | cons c after =>
          have hdigit := accepted.decimal c (by simp [n.parts.2.1, hafter])
          rw [n.blankAfter c (by simp [hafter])] at hdigit
          exact absurd hdigit (by decide)
    · intro hboth
      have hrefused := h.refuses ⟨fun n => n.parts.2.2.2 hboth.1⟩
      rw [hrefused] at hresult
      cases hresult with
      | refused _ notAccepted => exact notAccepted hboth.2
    · intro hover
      have hnone := (convert_eq_none_iff str).mpr hover
      obtain hempty | ⟨⟨n⟩⟩ := isEmpty_or_nonempty (Numeral str)
      · simp [h.refuses hempty] at hnone
      · obtain ⟨v, hv, -⟩ := h.accepts n
        simp [hv] at hnone
  · intro h
    have hnone := (convert_eq_none_iff str).not.mpr h.noOverflow
    obtain ⟨result, hreturned⟩ : ∃ result, convert .checked str = result := ⟨_, rfl⟩
    rw [hreturned] at hresult hnone
    refine ⟨?_, ?_⟩
    · intro n
      obtain ⟨accepted, hdecimal⟩ := n.accepted (h.noBlankEnd n)
      cases hresult with
      | overflow _ => exact absurd rfl hnone
      | value v _ denoted =>
        refine ⟨v, hreturned, ?_⟩
        have hsign := n.parts.2.2.1
        rw [denoted, hdecimal, Numeral.value]
        by_cases hminus : n.sign = ['-'.toUInt8]
        · simp [hminus, hsign.mpr hminus]
        · simp [hminus, hsign.not.mpr hminus]
      | refused _ notAccepted => exact absurd accepted notAccepted
    · intro hempty
      cases hresult with
      | overflow _ => exact absurd rfl hnone
      | value v accepted denoted =>
        have hsign : ¬ ['-'.toUInt8, '+'.toUInt8] <+: unblank str :=
          fun hboth => h.oneSign ⟨hboth, accepted⟩
        exact absurd (numeral_of_accepted accepted hsign) (not_nonempty_iff.mpr hempty)
      | refused _ _ => exact hreturned

/-- A sample of the comment with a space behind it is refused, two signs are taken
for one. -/
theorem documented_strings_differ :
    ¬ Conforms (" 700 ".toList.map Char.toUInt8) ∧
      ¬ Conforms ("-+5".toList.map Char.toUInt8) := by
  constructor
  · intro h
    have hrefused : convert .checked (" 700 ".toList.map Char.toUInt8) = some none := by decide
    have numeral : Numeral (" 700 ".toList.map Char.toUInt8) :=
      { before := [' '.toUInt8]
        sign := []
        digits := "700".toList.map Char.toUInt8
        after := [' '.toUInt8]
        split := by decide
        blankBefore := by simp
        signed := Or.inl rfl
        decimal := List.all_eq_true.mp (by decide)
        shape := by decide
        blankAfter := by simp
        range := by decide }
    obtain ⟨v, hv, -⟩ := h.accepts numeral
    rw [hrefused] at hv
    cases hv
  · intro h
    have htaken : convert .checked ("-+5".toList.map Char.toUInt8) = some (some (-5)) := by decide
    have hsigns : ['-'.toUInt8, '+'.toUInt8] <+: unblank ("-+5".toList.map Char.toUInt8) := by
      decide
    have hrefused := h.refuses ⟨fun n => n.parts.2.2.2 hsigns⟩
    rw [htaken] at hrefused
    cases hrefused

end CppCodes.Guarantees.DocumentedIntegers
