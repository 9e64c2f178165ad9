import CppCodes.Library.Decimal
import CppCodes.Library.Grouping
import CppCodes.Source.ParamPack.StringHolder

/-!
# Formatting a number at compile time

`index_string` takes the digits off the right end of the number and puts them in front of
the ones it has; `add_commas` goes from the left and looks at how many characters are left.
-/

set_option autoImplicit false

namespace CppCodes.Guarantees.NumberFormatting

open CppCodes.Library CppCodes.Library.Grouping
open CppCodes.Source.ParamPack

/-- The number that decimal digits denote. -/
def denoted (s : List Int8) : Nat := decimal (s.map Int8.toUInt8)

/-- `s` is the decimal numeral of `n`: digits only, and the first is no zero that could be
left out. -/
structure Numeral (n : Nat) (s : List Int8) : Prop where
  digits : ∀ c ∈ s, isDigit c.toUInt8 = true
  nonempty : s ≠ []
  denotes : denoted s = n
  no_leading_zero : s.head? = some (char '0') → s = [char '0']

/-- `s` is the numeral with commas between groups of three digits. -/
structure Formatted (numeral s : List Int8) : Prop where
  numeral_back : s.filter (· ≠ char ',') = numeral
  groups : ∃ first rest, s.splitOn (char ',') = first :: rest ∧
    1 ≤ first.length ∧ first.length ≤ 3 ∧ ∀ g ∈ rest, g.length = 3
  begins : s.head? ≠ some (char ',')
  ends : s.getLast? ≠ some (char ',')

/-! ## The digits -/

def digit (d : Nat) : Int8 := Int8.ofNat (48 + d)

theorem charArgument_digit {d : Nat} (hd : d < 10) :
    charArgument ((d + 48 : Nat) : Int) = some (digit d) := by
  have hrange : -128 ≤ ((d + 48 : Nat) : Int) ∧ ((d + 48 : Nat) : Int) ≤ 127 := by omega
  rw [charArgument, if_pos hrange, digit, Nat.add_comm]
  rfl

theorem isDigit_digit : ∀ d < 10, isDigit (digit d).toUInt8 = true := by decide

theorem digitValue_digit : ∀ d < 10, digitValue (digit d).toUInt8 = d := by decide

theorem digit_digitValue {c : Int8} (hc : isDigit c.toUInt8 = true) :
    digit (digitValue c.toUInt8) = c := by
  have hrange := isDigit_iff.mp hc
  have hcode : 48 + digitValue c.toUInt8 = c.toUInt8.toNat := by
    rw [digitValue]
    omega
  rw [digit, hcode]
  change (UInt8.ofNat c.toUInt8.toNat).toInt8 = c
  rw [UInt8.ofNat_toNat, Int8.toInt8_toUInt8]

theorem Numeral.of_digit {d : Nat} (hd : d < 10) : Numeral d [digit d] where
  digits c hc := by
    obtain rfl := List.mem_singleton.mp hc
    exact isDigit_digit d hd
  nonempty := List.cons_ne_nil _ _
  denotes := by simp [denoted, decimal, digitValue_digit d hd]
  no_leading_zero h := by
    simp only [List.head?_cons, Option.some.injEq] at h
    rw [h]

/-- One more digit, behind a numeral that is not zero. -/
theorem Numeral.snoc {n d : Nat} {s : List Int8} (h : Numeral n s) (hn : 0 < n) (hd : d < 10) :
    Numeral (10 * n + d) (s ++ [digit d]) where
  digits c hc := by
    rcases List.mem_append.mp hc with hc | hc
    · exact h.digits c hc
    · obtain rfl := List.mem_singleton.mp hc
      exact isDigit_digit d hd
  nonempty := by simp
  denotes := by
    have hdenotes := h.denotes
    unfold denoted at hdenotes ⊢
    rw [List.map_append, List.map_singleton, decimal_snoc, hdenotes, digitValue_digit d hd]
  no_leading_zero hzero := by
    rw [List.head?_append_of_ne_nil s h.nonempty] at hzero
    have hdenotes := h.denotes
    rw [h.no_leading_zero hzero] at hdenotes
    change 0 = n at hdenotes
    omega

theorem Numeral.head_ne_zero {n : Nat} {c : Int8} {s : List Int8} (h : Numeral n (c :: s))
    (hn : n ≠ 0) : c ≠ char '0' := by
  rintro rfl
  have hdenotes := h.denotes
  rw [h.no_leading_zero rfl] at hdenotes
  exact hn hdenotes.symm

theorem Numeral.eq_zero {s : List Int8} (h : Numeral 0 s) : s = [char '0'] := by
  cases s with
  | nil => exact absurd rfl h.nonempty
  | cons c s =>
    apply h.no_leading_zero
    by_contra hhead
    have hc : c.toUInt8 ≠ '0'.toUInt8 := by
      intro heq
      apply hhead
      rw [List.head?_cons, ← c.toInt8_toUInt8, heq]
      rfl
    have hlarge := decimal_ge (s.map Int8.toUInt8) (h.digits c List.mem_cons_self) hc
    have hpower := Nat.pow_pos (n := (s.map Int8.toUInt8).length) (by decide : 0 < 10)
    have hdenotes : decimal (c.toUInt8 :: s.map Int8.toUInt8) = 0 := h.denotes
    omega

theorem Numeral.eq_digits {n : Nat} {s : List Int8} (h : Numeral n s) (hn : n ≠ 0) :
    s = ((Nat.digits 10 n).map digit).reverse := by
  cases s with
  | nil => exact absurd rfl h.nonempty
  | cons c s =>
    have hvalues : ((c :: s).map Int8.toUInt8).reverse.map digitValue =
        (s.map Int8.toUInt8).reverse.map digitValue ++ [digitValue c.toUInt8] := by simp
    have hdenotes := h.denotes
    unfold denoted decimal at hdenotes
    rw [← hdenotes, Nat.digits_ofDigits 10 (by decide)]
    · rw [← List.map_reverse, ← List.map_reverse, List.reverse_reverse, List.map_map, List.map_map]
      have hback : ∀ e ∈ c :: s, ((digit ∘ digitValue) ∘ Int8.toUInt8) e = id e :=
        fun e he => digit_digitValue (h.digits e he)
      rw [List.map_congr_left hback, List.map_id]
    · intro d hd
      simp only [List.mem_map, List.mem_reverse] at hd
      obtain ⟨b, ⟨e, he, rfl⟩, rfl⟩ := hd
      have hrange := isDigit_iff.mp (h.digits e he)
      rw [digitValue]
      omega
    · intro hne
      simp only [hvalues, List.getLast_concat]
      intro hzero
      apply h.head_ne_zero hn
      rw [← digit_digitValue (h.digits c List.mem_cons_self), hzero]
      rfl

/-- A number has one numeral. -/
theorem Numeral.unique {n : Nat} {s t : List Int8} (hs : Numeral n s) (ht : Numeral n t) : s = t := by
  by_cases hn : n = 0
  · subst hn
    rw [hs.eq_zero, ht.eq_zero]
  · rw [hs.eq_digits hn, ht.eq_digits hn]

/-! ## The recursions -/

section IndexString

variable {n : UInt64} (cs : List Int8)

theorem indexString_of_lt (hn : n.toNat < 10) :
    indexString n cs = some ⟨digit n.toNat :: cs⟩ := by
  have hlt : n < 10 := UInt64.lt_iff_toNat_lt.mpr hn
  have hsum : (n + '0'.toNat.toUInt64).toNat = n.toNat + 48 := by
    rw [UInt64.toNat_add, show '0'.toNat.toUInt64.toNat = 48 from rfl]
    omega
  rw [indexString, dif_pos hlt, hsum, charArgument_digit hn]

theorem indexString_of_ge (hn : 10 ≤ n.toNat) :
    indexString n cs = indexString (n / 10) (digit (n.toNat % 10) :: cs) := by
  have hge : ¬ n < 10 := fun hlt => Nat.not_lt.mpr hn (UInt64.lt_iff_toNat_lt.mp hlt)
  have hsum : (n % 10 + '0'.toNat.toUInt64).toNat = n.toNat % 10 + 48 := by
    rw [UInt64.toNat_add, UInt64.toNat_mod, show '0'.toNat.toUInt64.toNat = 48 from rfl,
      show (10 : UInt64).toNat = 10 from rfl]
    omega
  rw [indexString, dif_neg hge, hsum, charArgument_digit (Nat.mod_lt _ (by decide))]

/-- In front of the characters that are there comes the numeral. -/
theorem indexString_eq (n : UInt64) (cs : List Int8) :
    ∃ s, indexString n cs = some ⟨s ++ cs⟩ ∧ Numeral n.toNat s := by
  induction hk : n.toNat using Nat.strong_induction_on generalizing n cs with
  | _ k ih =>
    subst hk
    by_cases hn : n.toNat < 10
    · exact ⟨[digit n.toNat], indexString_of_lt cs hn, .of_digit hn⟩
    · have hge : 10 ≤ n.toNat := Nat.not_lt.mp hn
      have hdiv : (n / 10).toNat = n.toNat / 10 := UInt64.toNat_div n 10
      have hless : (n / 10).toNat < n.toNat := by omega
      obtain ⟨s, heq, hnumeral⟩ := ih _ hless (n / 10) (digit (n.toNat % 10) :: cs) rfl
      refine ⟨s ++ [digit (n.toNat % 10)], ?_, ?_⟩
      · rw [indexString_of_ge cs hge, heq, List.append_assoc, List.singleton_append]
      · have hlonger := hnumeral.snoc (d := n.toNat % 10) (by omega) (Nat.mod_lt _ (by decide))
        rwa [hdiv, Nat.div_add_mod] at hlonger

end IndexString

theorem addCommas_eq (chars out : List Int8) :
    addCommas chars out = ⟨out ++ separate 3 (char ',') chars⟩ := by
  induction chars generalizing out with
  | nil => simp [addCommas, separate]
  | cons in0 inRest ih =>
    rw [addCommas, separate]
    split
    · simp [ih]
    · simp [ih]

example : (addCommas [49, 48, 48, 48, 48, 48, 48] []).cString = [49, 44, 48, 48, 48, 44, 48, 48, 48] := by
  decide

theorem Numeral.no_comma {n : Nat} {s : List Int8} (h : Numeral n s) : char ',' ∉ s := by
  intro hin
  exact absurd (h.digits _ hin) (by decide)

theorem Numeral.no_nul {n : Nat} {s : List Int8} (h : Numeral n s) : 0 ∉ s := by
  intro hin
  exact absurd (h.digits _ hin) (by decide)

theorem Numeral.formatted {n : Nat} {s : List Int8} (h : Numeral n s) :
    Formatted s (separate 3 (char ',') s) where
  numeral_back := filter_separate h.no_comma
  groups := by
    have hcounted := groups_counted (k := 3) (by decide) h.nonempty
    rw [splitOn_separate h.no_comma h.nonempty]
    cases hgroups : Grouping.groups 3 s with
    | nil => exact absurd (groups_eq_nil hgroups) h.nonempty
    | cons first rest =>
      rw [hgroups] at hcounted
      exact ⟨first, rest, rfl, hcounted⟩
  begins hhead := by
    rw [head?_separate] at hhead
    exact h.no_comma (List.mem_of_mem_head? hhead)
  ends hlast := by
    rw [getLast?_separate] at hlast
    exact h.no_comma (List.mem_of_getLast? hlast)

/-- Neither string has a NUL in it, so it is the same as a `std::string` and as a C string. -/
theorem numbers_formatted (n : UInt64) :
    ∃ numeral, indexString n [] = some numeral ∧ Numeral n.toNat numeral.toStdString ∧
      numeral.cString = numeral.toStdString ∧
      Formatted numeral.toStdString (addCommas numeral.chars []).toStdString ∧
      (addCommas numeral.chars []).cString = (addCommas numeral.chars []).toStdString := by
  obtain ⟨s, heq, hnumeral⟩ := indexString_eq n []
  rw [List.append_nil] at heq
  have hno_nul : 0 ∉ separate 3 (char ',') s := by
    intro hin
    rcases mem_separate hin with hcomma | hin
    · exact absurd hcomma (by decide)
    · exact hnumeral.no_nul hin
  have hcommas : addCommas s [] = ⟨separate 3 (char ',') s⟩ := by rw [addCommas_eq, List.nil_append]
  refine ⟨⟨s⟩, heq, ?_⟩
  rw [hcommas]
  simp only [StringHolder.toStdString_eq]
  exact ⟨hnumeral, StringHolder.cString_eq hnumeral.no_nul, hnumeral.formatted,
    StringHolder.cString_eq hno_nul⟩

end CppCodes.Guarantees.NumberFormatting
