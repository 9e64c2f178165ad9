import CppCodes.Source.Atoi.MyAtoi
import Mathlib.Data.List.TakeWhile

/-!
# What the readers compute

A `Reading` cuts a text behind its white space, its sign and its digits, each as
long as it can be; every text has one (`reading`). `read_eq` is the value that
`read` returns for it, with the white space, the sign and the digits taken from
the first `n` octets only.
-/

set_option autoImplicit false

namespace CppCodes.Source.Atoi

open CppCodes.Library

structure Reading (text : Bytes) where
  spaces : Bytes
  sign : Bytes
  digits : Bytes
  rest : Bytes
  split : text = spaces ++ (sign ++ (digits ++ rest))
  white : ∀ c ∈ spaces, isSpace c = true
  signed : sign = [] ∨ sign = ['+'.toUInt8] ∨ sign = ['-'.toUInt8]
  decimal : ∀ c ∈ digits, isDigit c = true
  spacesEnd : ∀ c ∈ (sign ++ (digits ++ rest)).head?, isSpace c = false
  signEnd : sign = [] → ∀ c ∈ (digits ++ rest).head?, c ≠ '+'.toUInt8 ∧ c ≠ '-'.toUInt8
  digitsEnd : ∀ c ∈ rest.head?, isDigit c = false

/-- The factor of a sign. -/
def signFactor (sign : Bytes) : Int := if sign = ['-'.toUInt8] then -1 else 1

/-- `[INT_MIN, INT_MAX]`. -/
def clamp (v : Int) : Int := max intMin.toInt (min intMax.toInt v)

namespace Reading

variable {text : Bytes} (r : Reading text)

def value : Int := signFactor r.sign * Library.decimal r.digits

/-- The first octet behind the number. -/
def stop : Nat := r.spaces.length + r.sign.length + r.digits.length

end Reading

theorem intMax_toInt : intMax.toInt = 2147483647 := by decide

theorem intMin_toInt : intMin.toInt = -2147483648 := by decide

theorem clamp_of_range {v : Int} (low : -2 ^ 31 ≤ v) (high : v < 2 ^ 31) : clamp v = v := by
  rw [clamp, intMax_toInt, intMin_toInt]
  omega

theorem signFactor_ofInt (sign : Bytes) :
    Int32.ofInt (signFactor sign) = 1 ∨ Int32.ofInt (signFactor sign) = -1 := by
  unfold signFactor
  split
  · exact Or.inr rfl
  · exact Or.inl rfl

theorem signFactor_toInt (sign : Bytes) :
    (Int32.ofInt (signFactor sign)).toInt = signFactor sign := by
  unfold signFactor
  split <;> rfl

/-- `s[i] - '0'` of a digit. -/
theorem sub_digit (A : IntArith) {c : UInt8} (hc : isDigit c = true) :
    ∃ d, A.sub (Int32.ofNat c.toNat) (Int32.ofNat '0'.toNat) = some d ∧
      d.toInt = digitValue c := by
  have hcode := isDigit_iff.mp hc
  have hchar : (Int32.ofNat c.toNat).toInt = c.toNat := Int32.toInt_ofNat_of_lt (by omega)
  have hzero : (Int32.ofNat '0'.toNat).toInt = 48 := by decide
  obtain ⟨d, hd, hvalue⟩ := A.sub_some (a := Int32.ofNat c.toNat) (b := Int32.ofNat '0'.toNat)
    (by omega) (by omega)
  exact ⟨d, hd, by rw [hvalue, digitValue]; omega⟩

section Loops

variable {n : Int} {i : Nat} {tail : Bytes}

theorem skipSpaces_spaces {spaces more : Bytes} (hwhite : ∀ c ∈ spaces, isSpace c = true)
    (hend : ∀ c ∈ more.head?, isSpace c = false)
    (hn : n.toNat = i + spaces.length + more.length) :
    skipSpaces n i (spaces ++ (more ++ tail)) = some (i + spaces.length, more ++ tail) := by
  induction spaces generalizing i with
  | nil =>
    cases more with
    | nil =>
      have hstop : ¬ (i : Int) < n := by
        simp only [List.length_nil] at hn
        omega
      cases tail <;> simp [skipSpaces, hstop]
    | cons c more =>
      have hgo : (i : Int) < n := by
        simp only [List.length_cons, List.length_nil] at hn
        omega
      have hc := hend c rfl
      simp [skipSpaces, hgo, hc]
  | cons c spaces ih =>
    have hgo : (i : Int) < n := by
      simp only [List.length_cons] at hn
      omega
    have hc := hwhite c (by simp)
    have hrest : skipSpaces n (i + 1) (spaces ++ (more ++ tail)) =
        some (i + 1 + spaces.length, more ++ tail) := by
      refine ih (fun d hd => hwhite d (by simp [hd])) ?_
      rw [List.length_cons] at hn
      omega
    simp only [List.cons_append, skipSpaces, hgo, if_true, hc, hrest, List.length_cons]
    congr 2
    omega

theorem readSign_sign {sign more : Bytes}
    (hsign : sign = [] ∨ sign = ['+'.toUInt8] ∨ sign = ['-'.toUInt8])
    (hend : sign = [] → ∀ c ∈ more.head?, c ≠ '+'.toUInt8 ∧ c ≠ '-'.toUInt8)
    (hn : n.toNat = i + sign.length + more.length) :
    readSign n i (sign ++ (more ++ tail)) =
      some (Int32.ofInt (signFactor sign), i + sign.length, more ++ tail) := by
  obtain rfl | rfl | rfl := hsign
  · cases more with
    | nil =>
      have hstop : ¬ (i : Int) < n := by
        simp only [List.length_nil] at hn
        omega
      cases tail <;> simp [readSign, hstop, signFactor]
    | cons c more =>
      have hgo : (i : Int) < n := by
        simp only [List.length_cons, List.length_nil] at hn
        omega
      have hc := hend rfl c rfl
      simp [readSign, hgo, hc, signFactor]
  · have hgo : (i : Int) < n := by
      simp only [List.length_cons, List.length_nil] at hn
      omega
    have hplus : '+'.toUInt8 ≠ '-'.toUInt8 := by decide
    simp [readSign, hgo, signFactor, hplus]
  · have hgo : (i : Int) < n := by
      simp only [List.length_cons, List.length_nil] at hn
      omega
    simp [readSign, hgo, signFactor]

/-- `front` is what was read so far and `res` its value: the loop goes on to the
value of the whole run, or past the limit. -/
theorem readDigits_digits (A : IntArith) {spelling : Spelling} (sound : spelling.Sound)
    {sign : Int32} (hsign : sign = 1 ∨ sign = -1) {front digits rest : Bytes} {res : Int32}
    (hdecimal : ∀ c ∈ digits, isDigit c = true) (hend : ∀ c ∈ rest.head?, isDigit c = false)
    (hn : n.toNat = i + digits.length + rest.length) (hres : res.toInt = decimal front) :
    readDigits A spelling n sign i (digits ++ (rest ++ tail)) res =
      some (Int32.ofInt (clamp (sign.toInt * decimal (front ++ digits)))) := by
  have hsign' : sign.toInt = 1 ∨ sign.toInt = -1 := by
    obtain rfl | rfl := hsign
    · exact Or.inl (by decide)
    · exact Or.inr (by decide)
  induction digits generalizing i front res with
  | nil =>
    have hproduct : A.mul sign res = some (Int32.ofInt (clamp (sign.toInt * decimal front))) := by
      have hlow : -2 ^ 31 ≤ sign.toInt * res.toInt := by
        have hhigh := res.toInt_lt
        obtain h | h := hsign' <;> rw [h] <;> omega
      have hhigh : sign.toInt * res.toInt < 2 ^ 31 := by
        have hhigh := res.toInt_lt
        obtain h | h := hsign' <;> rw [h] <;> omega
      rw [← hres, clamp_of_range hlow hhigh]
      exact A.fit_eq _ hlow hhigh
    rw [List.append_nil]
    cases rest with
    | nil =>
      have hstop : ¬ (i : Int) < n := by
        simp only [List.length_nil] at hn
        omega
      cases tail <;> simp [readDigits, hstop, hproduct]
    | cons c rest =>
      have hgo : (i : Int) < n := by
        simp only [List.length_cons, List.length_nil] at hn
        omega
      have hc := hend c rfl
      simp [readDigits, hgo, hc, hproduct]
  | cons c digits ih =>
    have hgo : (i : Int) < n := by
      simp only [List.length_cons] at hn
      omega
    have hc := hdecimal c (by simp)
    have hcode := isDigit_iff.mp hc
    have hsnoc : decimal (front ++ [c]) = 10 * decimal front + digitValue c := decimal_snoc front c
    have hwhole : front ++ c :: digits = front ++ [c] ++ digits := by simp
    obtain ⟨d, hd, hvalue⟩ := sub_digit A hc
    have hnine : digitValue c ≤ 9 := by
      rw [digitValue]
      omega
    have hlarge := sound.tooLarge_iff res d (by omega) (by omega) (by omega)
    rw [intMax_toInt] at hlarge
    simp only [List.cons_append, readDigits, hgo, if_true, hc, hd, Option.bind_eq_bind,
      Option.bind_some]
    by_cases hover : spelling.tooLarge res d = true
    · -- the run only grows from here, so its value is past the limit as well
      have hbeyond := hlarge.mp hover
      have hgrow := decimal_le_append (front ++ [c]) digits
      rw [if_pos hover, hwhole]
      obtain rfl | rfl := hsign
      · have hclamp : clamp ((1 : Int32).toInt * decimal (front ++ [c] ++ digits)) =
            intMax.toInt := by
          rw [clamp, intMax_toInt, intMin_toInt, show (1 : Int32).toInt = 1 from rfl]
          omega
        rw [sound.limit_plus, hclamp, Int32.ofInt_toInt]
      · have hclamp : clamp ((-1 : Int32).toInt * decimal (front ++ [c] ++ digits)) =
            intMin.toInt := by
          rw [clamp, intMax_toInt, intMin_toInt, show (-1 : Int32).toInt = -1 from rfl]
          omega
        rw [sound.limit_minus, hclamp, Int32.ofInt_toInt]
    · have hbelow := hlarge.not.mp hover
      obtain ⟨tens, htens, htens'⟩ := A.mul_some (a := res) (b := 10)
        (by rw [show (10 : Int32).toInt = 10 from rfl]; omega)
        (by rw [show (10 : Int32).toInt = 10 from rfl]; omega)
      rw [show (10 : Int32).toInt = 10 from rfl] at htens'
      obtain ⟨next, hadd, hnext⟩ := A.add_some (a := tens) (b := d) (by omega) (by omega)
      have hloop : readDigits A spelling n sign (i + 1) (digits ++ (rest ++ tail)) next =
          some (Int32.ofInt (clamp (sign.toInt * decimal (front ++ [c] ++ digits)))) := by
        refine ih (fun e he => hdecimal e (by simp [he])) ?_ (by omega)
        rw [List.length_cons] at hn
        omega
      rw [if_neg hover, htens, Option.bind_some, hadd, Option.bind_some, hloop, hwhole]

end Loops

/-- With `n` octets to go through, the value is that of the text they make. -/
theorem read_eq (A : IntArith) {spelling : Spelling} (sound : spelling.Sound) {s : StringView}
    {window tail : Bytes} (hsplit : s.bytes = window ++ tail)
    (hn : (spelling.bound s.bytes.length).toNat = window.length) (r : Reading window) :
    read A spelling s = some (Int32.ofInt (clamp r.value)) := by
  have hlength := congrArg List.length r.split
  simp only [List.length_append] at hlength
  have hbytes : s.bytes = r.spaces ++ ((r.sign ++ (r.digits ++ r.rest)) ++ tail) := by
    rw [hsplit, ← List.append_assoc, ← r.split]
  unfold read
  generalize spelling.bound s.bytes.length = n at hn ⊢
  have hspaces : skipSpaces n 0 (r.spaces ++ ((r.sign ++ (r.digits ++ r.rest)) ++ tail)) =
      some (0 + r.spaces.length, (r.sign ++ (r.digits ++ r.rest)) ++ tail) := by
    refine skipSpaces_spaces r.white r.spacesEnd ?_
    simp only [List.length_append]
    omega
  have hsign : readSign n (0 + r.spaces.length) (r.sign ++ ((r.digits ++ r.rest) ++ tail)) =
      some (Int32.ofInt (signFactor r.sign), 0 + r.spaces.length + r.sign.length,
        (r.digits ++ r.rest) ++ tail) := by
    refine readSign_sign r.signed r.signEnd ?_
    simp only [List.length_append]
    omega
  have hdigits : readDigits A spelling n (Int32.ofInt (signFactor r.sign))
      (0 + r.spaces.length + r.sign.length) (r.digits ++ (r.rest ++ tail)) 0 =
      some (Int32.ofInt (clamp ((Int32.ofInt (signFactor r.sign)).toInt *
        Library.decimal ([] ++ r.digits)))) := by
    refine readDigits_digits A sound (signFactor_ofInt r.sign) r.decimal r.digitsEnd ?_ rfl
    omega
  rw [signFactor_toInt, List.nil_append] at hdigits
  simp only [List.append_assoc] at hbytes hspaces hsign hdigits
  simp only [hbytes, hspaces, hsign, Option.bind_eq_bind, Option.bind_some, hdigits]
  rfl

/-- The sign a text begins with. -/
def signOf (text : Bytes) : Bytes :=
  match text with
  | [] => []
  | c :: _ => if c = '+'.toUInt8 ∨ c = '-'.toUInt8 then [c] else []

theorem signOf_append (text : Bytes) : signOf text ++ text.drop (signOf text).length = text := by
  cases text with
  | nil => rfl
  | cons c text =>
    unfold signOf
    by_cases hc : c = '+'.toUInt8 ∨ c = '-'.toUInt8 <;> simp [hc]

theorem signOf_signed (text : Bytes) :
    signOf text = [] ∨ signOf text = ['+'.toUInt8] ∨ signOf text = ['-'.toUInt8] := by
  cases text with
  | nil => exact Or.inl rfl
  | cons c text =>
    unfold signOf
    by_cases hc : c = '+'.toUInt8 ∨ c = '-'.toUInt8
    · obtain rfl | rfl := hc <;> simp
    · simp [hc]

theorem signOf_eq_nil {text : Bytes} (h : signOf text = []) :
    ∀ c ∈ text.head?, c ≠ '+'.toUInt8 ∧ c ≠ '-'.toUInt8 := by
  cases text with
  | nil => simp
  | cons c text =>
    unfold signOf at h
    by_cases hc : c = '+'.toUInt8 ∨ c = '-'.toUInt8
    · simp [hc] at h
    · simpa [not_or] using hc

theorem head?_dropWhile {p : UInt8 → Bool} {text : Bytes} :
    ∀ c ∈ (text.dropWhile p).head?, p c = false := by
  intro c hc
  have hfirst := List.head?_dropWhile_not p text
  rwa [Option.mem_def.mp hc] at hfirst

theorem head?_take {k : Nat} {text : Bytes} {c : UInt8} (h : c ∈ (text.take k).head?) :
    c ∈ text.head? := by
  cases text with
  | nil => simp at h
  | cons d text =>
    cases k with
    | zero => simp at h
    | succ k => exact h

/-- Every text has a reading. -/
def reading (text : Bytes) : Reading text :=
  let signed := text.dropWhile isSpace
  let unsigned := signed.drop (signOf signed).length
  have hunsigned : unsigned.takeWhile isDigit ++ unsigned.dropWhile isDigit = unsigned :=
    List.takeWhile_append_dropWhile
  have hsigned : signOf signed ++ unsigned = signed := signOf_append signed
  { spaces := text.takeWhile isSpace
    sign := signOf signed
    digits := unsigned.takeWhile isDigit
    rest := unsigned.dropWhile isDigit
    split := by rw [hunsigned, hsigned, List.takeWhile_append_dropWhile]
    white := fun _ => List.mem_takeWhile_imp
    signed := signOf_signed signed
    decimal := fun _ => List.mem_takeWhile_imp
    spacesEnd := by
      rw [hunsigned, hsigned]
      exact head?_dropWhile
    signEnd := by
      intro hnone
      rw [hunsigned]
      have hsame : unsigned = signed := by simp [unsigned, hnone]
      rw [hsame]
      exact signOf_eq_nil hnone
    digitsEnd := head?_dropWhile }

namespace Reading

variable {text : Bytes} (r : Reading text)

/-- The reading of the first octets: what they contain of each part. -/
def take (k : Nat) : Reading (text.take k) where
  spaces := r.spaces.take k
  sign := r.sign.take (k - r.spaces.length)
  digits := r.digits.take (k - r.spaces.length - r.sign.length)
  rest := r.rest.take (k - r.spaces.length - r.sign.length - r.digits.length)
  split := by
    conv_lhs => rw [r.split]
    simp only [List.take_append]
  white c hc := r.white c (List.mem_of_mem_take hc)
  signed := by
    have hsigned := r.signed
    cases k - r.spaces.length with
    | zero => simp
    | succ m =>
      obtain h | h | h := hsigned <;> simp [h]
  decimal c hc := r.decimal c (List.mem_of_mem_take hc)
  spacesEnd := by
    intro c hc
    rw [← List.take_append, ← List.take_append] at hc
    exact r.spacesEnd c (head?_take hc)
  signEnd hnone := by
    intro c hc
    rw [← List.take_append] at hc
    by_cases hsign : r.sign = []
    · exact r.signEnd hsign c (head?_take hc)
    · -- the cut is before the sign, so nothing is left behind it
      have hshort : k - r.spaces.length = 0 := by
        have hpos := List.length_pos_iff.mpr hsign
        have hlen := congrArg List.length hnone
        rw [List.length_take, List.length_nil] at hlen
        omega
      simp [hshort] at hc
  digitsEnd c hc := r.digitsEnd c (head?_take hc)

end Reading

end CppCodes.Source.Atoi
