import CppCodes.Library.Decimal
import CppCodes.Library.IntArith

/-!
# The integers of a text file

Source: others/iterator.cpp:36-72. The result is the `std::optional<int>`, or `none`
where a sum leaves the range of `int` and `A` is the checked arithmetic. A loop is
at position `i` with the octets from there on. A negative `char` is below `'0'`, so it
is refused like an octet above `'9'` is here.
-/

set_option autoImplicit false

namespace CppCodes.Source.Others.Iterator

open CppCodes.Library

abbrev Bytes := List UInt8

/-- The limit of both signs. -/
def limit : Int32 := 1000000000

/-- `while (startIdx < str.size() && ' ' == str[startIdx]) { ++startIdx; }` -/
def trimSpaces : Nat → Bytes → Nat × Bytes
  | startIdx, [] => (startIdx, [])
  | startIdx, c :: rest =>
      if c = ' '.toUInt8 then trimSpaces (startIdx + 1) rest else (startIdx, c :: rest)

/-- The `if` of one sign: whether it is there, and the position behind it; `none` for
`return std::nullopt`. -/
def skipSign (size : Nat) (sign : UInt8) (startIdx : Nat) : Bytes → Option (Bool × Nat × Bytes)
  | [] => some (false, startIdx, [])
  | c :: rest =>
      if c = sign then
        if startIdx + 1 = size then none else some (true, startIdx + 1, rest)
      else some (false, startIdx, c :: rest)

variable (A : IntArith)

/-- The loop over the digits, and the `return` behind it. -/
def convertDigits (size startIdx : Nat) (positive : Bool) :
    Nat → Bytes → Int32 → Option (Option Int32)
  | _, [], ret => if positive then some (some ret) else (A.neg ret).map some
  | i, c :: rest, ret =>
      if c < '0'.toUInt8 ∨ c > '9'.toUInt8 then some none
      else if i = startIdx ∧ c = '0'.toUInt8 ∧ i ≠ size - 1 then some none
      else do
        let tens ← A.mul ret 10
        let sum ← A.add tens (Int32.ofNat c.toNat)
        let ret ← A.sub sum (Int32.ofNat '0'.toNat)
        if (ret = limit ∧ i ≠ size - 1) ∨ ret > limit then some none
        else convertDigits size startIdx positive (i + 1) rest ret

def convert (str : Bytes) : Option (Option Int32) :=
  if str.length = 0 then some none
  else
    let (startIdx, rest) := trimSpaces 0 str
    if startIdx = str.length then some none
    else
      match skipSign str.length '-'.toUInt8 startIdx rest with
      | none => some none
      | some (minus, startIdx, rest) =>
          match skipSign str.length '+'.toUInt8 startIdx rest with
          | none => some none
          | some (_, startIdx, rest) =>
              convertDigits A str.length startIdx (!minus) startIdx rest 0

/-! ## What is converted -/

/-- Behind the blanks in front. -/
def unblank (str : Bytes) : Bytes := str.dropWhile fun c => c == ' '.toUInt8

def stripSign (sign : UInt8) : Bytes → Bytes
  | [] => []
  | c :: rest => if c = sign then rest else c :: rest

def isNegative (str : Bytes) : Bool := (unblank str).head? = some '-'.toUInt8

/-- What the loop goes through. -/
def body (str : Bytes) : Bytes := stripSign '+'.toUInt8 (stripSign '-'.toUInt8 (unblank str))

def digitRun (str : Bytes) : Bytes := (body str).takeWhile isDigit

/-- What the loop takes for a number. -/
structure Accepted (body : Bytes) : Prop where
  nonempty : body ≠ []
  decimal : ∀ c ∈ body, isDigit c = true
  zero : body.head? = some '0'.toUInt8 → body = ['0'.toUInt8]
  range : Library.decimal body ≤ 1000000000

/-- The tenth digit takes the sum, with the code of the digit still in it, out of
the range of `int`. -/
structure Overflow (run : Bytes) : Prop where
  ten : 10 ≤ run.length
  noZero : run.head? ≠ some '0'.toUInt8
  large : 2147483600 ≤ decimal (run.take 10)

/-- What `convert` returns, by the octets its loop goes through. -/
inductive Converted (positive : Bool) (body : Bytes) : Option (Option Int32) → Prop
  | overflow (large : Overflow (body.takeWhile isDigit)) : Converted positive body none
  | value (v : Int32) (accepted : Accepted body)
      (denoted : v.toInt = (if positive then 1 else -1) * (decimal body : Int)) :
      Converted positive body (some (some v))
  | refused (noOverflow : ¬ Overflow (body.takeWhile isDigit)) (notAccepted : ¬ Accepted body) :
      Converted positive body (some none)

theorem unblank_length_le (str : Bytes) : (unblank str).length ≤ str.length :=
  (List.dropWhile_sublist _).length_le

theorem trimSpaces_eq (i : Nat) (str : Bytes) :
    trimSpaces i str = (i + (str.length - (unblank str).length), unblank str) := by
  induction str generalizing i with
  | nil => simp [trimSpaces, unblank]
  | cons c str ih =>
    by_cases hblank : c = ' '.toUInt8
    · have hsame : unblank (c :: str) = unblank str := by simp [unblank, hblank]
      have hle := unblank_length_le str
      rw [trimSpaces, if_pos hblank, ih, hsame, List.length_cons]
      congr 1
      omega
    · have hsame : unblank (c :: str) = c :: str := by simp [unblank, hblank]
      rw [trimSpaces, if_neg hblank, hsame]
      simp

theorem skipSign_eq {size i : Nat} {rest : Bytes} (sign : UInt8) (h : i + rest.length = size) :
    skipSign size sign i rest =
      if rest = [sign] then none
      else some (decide (rest.head? = some sign), size - (stripSign sign rest).length,
        stripSign sign rest) := by
  cases rest with
  | nil =>
    have hi : i = size := by simpa using h
    simp [skipSign, stripSign, hi]
  | cons c rest =>
    rw [List.length_cons] at h
    by_cases hc : c = sign
    · subst hc
      by_cases hlast : rest = []
      · have hend : i + 1 = size := by simpa [hlast] using h
        simp [skipSign, hlast, hend]
      · have hpos := List.length_pos_iff.mpr hlast
        have hend : ¬ i + 1 = size := by omega
        simp only [skipSign, stripSign, if_true, hend, if_false, List.cons.injEq, true_and, hlast,
          List.head?_cons, decide_true, Option.some.injEq, Prod.mk.injEq, and_true]
        omega
    · have hi : i = size - (rest.length + 1) := by omega
      simp [skipSign, stripSign, hc, hi]

theorem stripSign_eq_nil {sign : UInt8} {rest : Bytes} :
    stripSign sign rest = [] ↔ rest = [] ∨ rest = [sign] := by
  cases rest with
  | nil => simp [stripSign]
  | cons c rest =>
    by_cases hc : c = sign <;> simp [stripSign, hc]

theorem stripSign_length_le (sign : UInt8) (rest : Bytes) :
    (stripSign sign rest).length ≤ rest.length := by
  cases rest with
  | nil => simp [stripSign]
  | cons c rest =>
    by_cases hc : c = sign <;> simp [stripSign, hc]

theorem body_length_le (str : Bytes) : (body str).length ≤ str.length :=
  Nat.le_trans (stripSign_length_le _ _)
    (Nat.le_trans (stripSign_length_le _ _) (unblank_length_le str))

/-- Everything before the loop. -/
theorem convert_eq (str : Bytes) :
    convert A str =
      if body str = [] then some none
      else convertDigits A str.length (str.length - (body str).length) (!isNegative str)
        (str.length - (body str).length) (body str) 0 := by
  have hle := unblank_length_le str
  have hle' := stripSign_length_le '-'.toUInt8 (unblank str)
  unfold convert
  by_cases hempty : str.length = 0
  · have hnil : str = [] := List.length_eq_zero_iff.mp hempty
    subst hnil
    rfl
  · rw [if_neg hempty, trimSpaces_eq]
    by_cases hblank : unblank str = []
    · simp [hblank, body, stripSign]
    · have hpos := List.length_pos_iff.mpr hblank
      have hgo : ¬ 0 + (str.length - (unblank str).length) = str.length := by omega
      dsimp only
      rw [if_neg hgo, skipSign_eq _ (by omega)]
      by_cases hminus : unblank str = ['-'.toUInt8]
      · simp [hminus, body, stripSign]
      · rw [if_neg hminus]
        dsimp only
        rw [skipSign_eq _ (by omega)]
        by_cases hplus : stripSign '-'.toUInt8 (unblank str) = ['+'.toUInt8]
        · have hbody : body str = [] := stripSign_eq_nil.mpr (Or.inr hplus)
          rw [if_pos hplus, if_pos hbody]
        · have hbody : body str ≠ [] := by
            intro hnil
            cases stripSign_eq_nil.mp hnil with
            | inl h =>
              cases stripSign_eq_nil.mp h with
              | inl h' => exact hblank h'
              | inr h' => exact hminus h'
            | inr h => exact hplus h
          rw [if_neg hplus, if_neg hbody]
          rfl

/-! ## The loop -/

/-- A run within the limit never gets to the overflow. -/
theorem not_overflow_of_le {run : Bytes} (h : decimal run ≤ 1000000000) : ¬ Overflow run := by
  intro hover
  have hlarge := hover.large
  have hgrow := decimal_le_append (run.take 10) (run.drop 10)
  rw [List.take_append_drop] at hgrow
  omega

/-- A number that does not begin with 0 reaches 10^9 with its tenth digit. -/
theorem length_nine {front : Bytes} {c : UInt8}
    (hdecimal : ∀ d ∈ front ++ [c], isDigit d = true)
    (hfirst : (front ++ [c]).head? ≠ some '0'.toUInt8) (hlow : decimal front < 1000000000)
    (hnext : 1000000000 ≤ decimal (front ++ [c])) : front.length = 9 := by
  have hupper := decimal_lt hdecimal
  rw [List.length_append, List.length_singleton] at hupper
  have hmany : 9 < front.length + 1 := by
    refine (Nat.pow_lt_pow_iff_right (a := 10) (by omega)).mp ?_
    omega
  cases front with
  | nil => simp at hmany
  | cons d front =>
    have hd : d ≠ '0'.toUInt8 := fun h => hfirst (by simp [h])
    have hlower := decimal_ge front (hdecimal d (by simp)) hd
    have hfew : front.length < 9 := by
      refine (Nat.pow_lt_pow_iff_right (a := 10) (by omega)).mp ?_
      omega
    rw [List.length_cons] at hmany ⊢
    omega

/-- `ret * 10 + str[i] - '0'` of a digit, or the overflow on the way. -/
theorem checked_digit {ret : Int32} {c : UInt8} {value : Nat} (hc : isDigit c = true)
    (hret : ret.toInt = value) :
    (2147483600 ≤ 10 * value + digitValue c ∧
      (IntArith.checked.mul ret 10 = none ∨ ∃ tens, IntArith.checked.mul ret 10 = some tens ∧
        IntArith.checked.add tens (Int32.ofNat c.toNat) = none)) ∨
    (10 * value + digitValue c < 2147483600 ∧
      ∃ tens sum next, IntArith.checked.mul ret 10 = some tens ∧
        IntArith.checked.add tens (Int32.ofNat c.toNat) = some sum ∧
        IntArith.checked.sub sum (Int32.ofNat '0'.toNat) = some next ∧
        next.toInt = 10 * value + digitValue c) := by
  have hcode := isDigit_iff.mp hc
  have hdigit : digitValue c = c.toNat - 48 := rfl
  have hproduct : ret.toInt * (10 : Int32).toInt = 10 * value := by
    rw [hret, show (10 : Int32).toInt = 10 from rfl, Int.mul_comm]
  have hzero : (Int32.ofNat '0'.toNat).toInt = 48 := by decide
  have hchar : (Int32.ofNat c.toNat).toInt = c.toNat := Int32.toInt_ofNat_of_lt (by omega)
  by_cases hlarge : 2147483600 ≤ 10 * value + digitValue c
  · refine Or.inl ⟨hlarge, ?_⟩
    by_cases hmul : 2 ^ 31 ≤ ret.toInt * (10 : Int32).toInt
    · exact Or.inl (IntArith.checked_fit_eq_none hmul)
    · obtain ⟨tens, hmul, htens⟩ := IntArith.checked.mul_some (a := ret) (b := 10) (by omega)
        (by omega)
      exact Or.inr ⟨tens, hmul, IntArith.checked_fit_eq_none (by omega)⟩
  · refine Or.inr ⟨by omega, ?_⟩
    obtain ⟨tens, hmul, htens⟩ := IntArith.checked.mul_some (a := ret) (b := 10) (by omega)
      (by omega)
    obtain ⟨sum, hadd, hsum⟩ := IntArith.checked.add_some (a := tens) (b := Int32.ofNat c.toNat)
      (by omega) (by omega)
    obtain ⟨next, hsub, hnext⟩ := IntArith.checked.sub_some (a := sum)
      (b := Int32.ofNat '0'.toNat) (by omega) (by omega)
    exact ⟨tens, sum, next, hmul, hadd, hsub, by omega⟩

theorem out_of_range_iff {c : UInt8} :
    (c < '0'.toUInt8 ∨ c > '9'.toUInt8) ↔ isDigit c = false := by
  simp only [isDigit, Bool.and_eq_false_iff, decide_eq_false_iff_not, UInt8.not_le, gt_iff_lt]

theorem head?_front {front rest : Bytes} {c : UInt8} :
    (front ++ c :: rest).head? = (front ++ [c]).head? := by
  cases front <;> rfl

theorem limit_toInt : limit.toInt = 1000000000 := by decide

section Digit

variable {front rest : Bytes} {c : UInt8}

theorem takeWhile_ten (hdecimal : ∀ d ∈ front ++ [c], isDigit d = true)
    (hnine : front.length = 9) :
    ((front ++ [c] ++ rest).takeWhile isDigit).take 10 = front ++ [c] := by
  rw [List.takeWhile_append_of_pos hdecimal]
  exact List.take_left' (by simp [hnine])

/-- The digit with which the sum leaves the range of `int`. -/
theorem overflow_of_large (hdecimal : ∀ d ∈ front ++ [c], isDigit d = true)
    (hfirst : (front ++ [c]).head? ≠ some '0'.toUInt8) (hlow : decimal front < 1000000000)
    (hlarge : 2147483600 ≤ decimal (front ++ [c])) :
    Overflow ((front ++ [c] ++ rest).takeWhile isDigit) := by
  have hnine := length_nine hdecimal hfirst hlow (by omega)
  refine ⟨?_, ?_, ?_⟩
  · simp only [List.takeWhile_append_of_pos hdecimal, List.length_append, List.length_singleton]
    omega
  · rw [List.takeWhile_append_of_pos hdecimal, List.append_assoc, List.singleton_append,
      head?_front]
    exact hfirst
  · rwa [takeWhile_ten hdecimal hnine]

/-- The digit that takes the value past the limit, or to it with more to come. -/
theorem refused_of_beyond {positive : Bool} (hdecimal : ∀ d ∈ front ++ [c], isDigit d = true)
    (hfirst : (front ++ [c]).head? ≠ some '0'.toUInt8) (hlow : decimal front < 1000000000)
    (hsmall : decimal (front ++ [c]) < 2147483600)
    (hbeyond : (decimal (front ++ [c]) = 1000000000 ∧ rest ≠ []) ∨
      1000000000 < decimal (front ++ [c])) :
    Converted positive (front ++ [c] ++ rest) (some none) := by
  have hnine := length_nine hdecimal hfirst hlow (by omega)
  refine .refused ?_ ?_
  · intro hover
    have hlarge := hover.large
    rw [takeWhile_ten hdecimal hnine] at hlarge
    omega
  · intro haccepted
    have hvalue := haccepted.range
    have hgrow := decimal_le_append (front ++ [c]) rest
    obtain ⟨hat, hrest⟩ | hpast := hbeyond
    · have hpower : 10 ≤ 10 ^ rest.length :=
        Nat.le_self_pow (fun h => hrest (List.length_eq_zero_iff.mp h)) 10
      have hmore : decimal (front ++ [c]) * 10 ≤ decimal (front ++ [c]) * 10 ^ rest.length :=
        Nat.mul_le_mul_left _ hpower
      rw [decimal_append] at hvalue
      omega
    · omega

end Digit

/-- `front` is what the loop has read and `ret` its value. -/
theorem convertDigits_converted {size startIdx i : Nat} {positive : Bool} {front rest : Bytes}
    {ret : Int32} (hsize : startIdx + (front ++ rest).length = size)
    (hi : i = startIdx + front.length) (hsome : front ++ rest ≠ [])
    (hfirst : (front ++ rest).head? ≠ some '0'.toUInt8)
    (hfront : ∀ c ∈ front, isDigit c = true) (hret : ret.toInt = decimal front)
    (hle : decimal front ≤ 1000000000) (hlow : rest ≠ [] → decimal front < 1000000000) :
    Converted positive (front ++ rest)
      (convertDigits .checked size startIdx positive i rest ret) := by
  induction rest generalizing front i ret with
  | nil =>
    rw [List.append_nil] at hsome hfirst ⊢
    have haccepted : Accepted front := ⟨hsome, hfront, fun h => absurd h hfirst, hle⟩
    unfold convertDigits
    cases positive with
    | true => exact .value ret haccepted (by simp [hret])
    | false =>
      obtain ⟨v, hneg, hv⟩ := IntArith.checked.neg_some (a := ret) (by omega)
      simp only [Bool.false_eq_true, if_false, hneg, Option.map_some]
      exact .value v haccepted (by simp [hv, hret])
  | cons c rest ih =>
    have hbefore := hlow (List.cons_ne_nil c rest)
    by_cases hc : isDigit c = true
    · have hwhole : front ++ c :: rest = front ++ [c] ++ rest := by simp
      have hdecimal : ∀ d ∈ front ++ [c], isDigit d = true := by
        intro d hd
        cases List.mem_append.mp hd with
        | inl hold => exact hfront d hold
        | inr hnew => exact List.mem_singleton.mp hnew ▸ hc
      have hrange : ¬ (c < '0'.toUInt8 ∨ c > '9'.toUInt8) := by
        rw [out_of_range_iff, hc]
        decide
      have hzero : ¬ (i = startIdx ∧ c = '0'.toUInt8 ∧ i ≠ size - 1) := by
        intro h
        have hnil : front = [] := List.length_eq_zero_iff.mp (by omega)
        exact hfirst (by simp [hnil, h.2.1])
      have hsnoc : decimal (front ++ [c]) = 10 * decimal front + digitValue c :=
        decimal_snoc front c
      have hfirst' : (front ++ [c]).head? ≠ some '0'.toUInt8 := by
        rwa [head?_front] at hfirst
      have hlast : i = size - 1 ↔ rest = [] := by
        rw [← List.length_eq_zero_iff]
        simp only [List.length_append, List.length_cons] at hsize
        omega
      simp only [convertDigits, if_neg hrange, if_neg hzero]
      obtain ⟨hlarge, hstop⟩ | ⟨hsmall, tens, sum, next, hmul, hadd, hsub, hnext⟩ :=
        checked_digit hc hret
      · rw [hwhole]
        have hover : Overflow ((front ++ [c] ++ rest).takeWhile isDigit) :=
          overflow_of_large hdecimal hfirst' hbefore (by omega)
        obtain hmul | ⟨tens, hmul, hadd⟩ := hstop
        · simp only [hmul, Option.bind_eq_bind, Option.bind_none]
          exact .overflow hover
        · simp only [hmul, hadd, Option.bind_eq_bind, Option.bind_some, Option.bind_none]
          exact .overflow hover
      · simp only [hmul, hadd, hsub, Option.bind_eq_bind, Option.bind_some]
        have heq : next = limit ↔ decimal (front ++ [c]) = 1000000000 := by
          rw [← Int32.toInt_inj, limit_toInt]
          omega
        have hgt : next > limit ↔ 1000000000 < decimal (front ++ [c]) := by
          rw [gt_iff_lt, Int32.lt_iff_toInt_lt, limit_toInt]
          omega
        by_cases hbeyond : (next = limit ∧ i ≠ size - 1) ∨ next > limit
        · rw [if_pos hbeyond, hwhole]
          rw [heq, hgt, ne_eq, hlast] at hbeyond
          exact refused_of_beyond hdecimal hfirst' hbefore (by omega) hbeyond
        · rw [if_neg hbeyond, hwhole]
          rw [heq, hgt, ne_eq, hlast, not_or] at hbeyond
          refine ih ?_ ?_ (by simp) ?_ hdecimal (by omega) (by omega) ?_
          · rw [← hwhole]
            exact hsize
          · rw [List.length_append, List.length_singleton]
            omega
          · rw [← hwhole]
            exact hfirst
          · intro hrest
            have hbelow : decimal (front ++ [c]) ≠ 1000000000 := fun h => hbeyond.1 ⟨h, hrest⟩
            omega
    · have hnot : isDigit c = false := by simpa using hc
      have hrun : (front ++ c :: rest).takeWhile isDigit = front := by
        rw [List.takeWhile_append_of_pos hfront, List.takeWhile_cons_of_neg hc, List.append_nil]
      simp only [convertDigits, if_pos (out_of_range_iff.mpr hnot)]
      refine .refused ?_ ?_
      · rw [hrun]
        exact not_overflow_of_le hle
      · intro haccepted
        exact hc (haccepted.decimal c (by simp))

/-- A zero is the whole number, or nothing is. -/
theorem convertDigits_zero {size startIdx : Nat} {positive : Bool} {rest : Bytes}
    (hsize : startIdx + ('0'.toUInt8 :: rest).length = size) :
    Converted positive ('0'.toUInt8 :: rest)
      (convertDigits .checked size startIdx positive startIdx ('0'.toUInt8 :: rest) 0) := by
  have hrange : ¬ ('0'.toUInt8 < '0'.toUInt8 ∨ '0'.toUInt8 > '9'.toUInt8) := by decide
  rw [List.length_cons] at hsize
  by_cases hlast : rest = []
  · have hlen := List.length_eq_zero_iff.mpr hlast
    have hend : ¬ (startIdx = startIdx ∧ '0'.toUInt8 = '0'.toUInt8 ∧
        startIdx ≠ size - 1) := by
      omega
    have hmul : IntArith.checked.mul 0 10 = some 0 := by decide
    have hadd : IntArith.checked.add 0 (Int32.ofNat '0'.toUInt8.toNat) = some 48 := by decide
    have hsub : IntArith.checked.sub 48 (Int32.ofNat '0'.toNat) = some 0 := by decide
    have hneg : IntArith.checked.neg 0 = some 0 := by decide
    have hbelow : ¬ (((0 : Int32) = limit ∧ startIdx ≠ size - 1) ∨ 0 > limit) := by
      have hlimit : (0 : Int32) ≠ limit ∧ ¬ 0 > limit := by decide
      simp [hlimit]
    have hvalue : convertDigits .checked size startIdx positive startIdx ('0'.toUInt8 :: rest) 0 =
        some (some 0) := by
      rw [hlast, convertDigits, if_neg hrange, if_neg hend]
      simp only [hmul, hadd, hsub, Option.bind_eq_bind, Option.bind_some, if_neg hbelow]
      cases positive <;> simp [convertDigits, hneg]
    rw [hvalue, hlast]
    have haccepted : Accepted ['0'.toUInt8] :=
      ⟨by simp, List.all_eq_true.mp (by decide), fun _ => rfl, by decide⟩
    exact .value 0 haccepted (by cases positive <;> decide)
  · have hmore : startIdx = startIdx ∧ '0'.toUInt8 = '0'.toUInt8 ∧ startIdx ≠ size - 1 := by
      have hpos := List.length_pos_iff.mpr hlast
      refine ⟨rfl, rfl, ?_⟩
      omega
    rw [convertDigits, if_neg hrange, if_pos hmore]
    refine .refused ?_ ?_
    · intro hover
      refine hover.noZero ?_
      rw [List.takeWhile_cons_of_pos (show isDigit '0'.toUInt8 = true by decide), List.head?_cons]
    · intro haccepted
      have hwhole := haccepted.zero rfl
      simp only [List.cons.injEq, true_and] at hwhole
      exact hlast hwhole

/-- What `convert` makes of a string. -/
theorem convert_converted (str : Bytes) :
    Converted (!isNegative str) (body str) (convert .checked str) := by
  have hle := body_length_le str
  rw [convert_eq]
  by_cases hempty : body str = []
  · rw [if_pos hempty, hempty]
    exact .refused (fun h => absurd h.ten (by simp)) (fun h => h.nonempty rfl)
  · rw [if_neg hempty]
    by_cases hzero : (body str).head? = some '0'.toUInt8
    · obtain ⟨rest, hbody⟩ := List.head?_eq_some_iff.mp hzero
      rw [hbody] at hle ⊢
      exact convertDigits_zero (by omega)
    · have hloop : Converted (!isNegative str) ([] ++ body str) (convertDigits .checked str.length
          (str.length - (body str).length) (!isNegative str)
          (str.length - (body str).length) (body str) 0) := by
        refine convertDigits_converted ?_ rfl hempty hzero (by simp) rfl (by simp) (by simp)
        rw [List.nil_append]
        omega
      exact hloop

end CppCodes.Source.Others.Iterator
