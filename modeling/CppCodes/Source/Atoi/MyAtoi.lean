import CppCodes.Library.Decimal
import CppCodes.Library.IntArith

/-!
# Two readers of a decimal number

Source: atoi/atoi.cpp:12-42 and atoi/atoi_1.cpp:12-39, one function in two
spellings. They differ in the type of `n`, in how the overflow test is written and
in how the limit is chosen; `Spelling` holds the three. A loop is at position `i`
with the octets from there on; reading where there are none is undefined and
`none`, as an overflow of `IntArith.checked` is. `i` stays below `n` and
fits its type in both.
-/

set_option autoImplicit false

namespace CppCodes.Source.Atoi

open CppCodes.Library

abbrev Bytes := List UInt8

/-- `std::string_view`, whose size is a `size_t`. -/
structure StringView where
  bytes : Bytes
  size_lt : bytes.length < 2 ^ 64

def intMax : Int32 := 2147483647
def intMin : Int32 := -2147483648

/-- `std::isspace` in the C locale: blank, `\\t`, `\\n`, `\\v`, `\\f`, `\\r`. -/
def isSpace (c : UInt8) : Bool := c == ' '.toUInt8 || (9 ≤ c && c ≤ 13)

structure Spelling where
  /-- The value of `n` after `n = s.size()`. -/
  bound : Nat → Int
  /-- The test before `res * 10 + d` is computed. -/
  tooLarge : Int32 → Int32 → Bool
  /-- What is returned when it succeeds, by `sign`. -/
  limit : Int32 → Int32

/-- `while (i < n && std::isspace(s[i])) ++i;` -/
def skipSpaces (n : Int) : Nat → Bytes → Option (Nat × Bytes)
  | i, [] => if i < n then none else some (i, [])
  | i, c :: rest =>
      if i < n then
        if isSpace c then skipSpaces n (i + 1) rest else some (i, c :: rest)
      else some (i, c :: rest)

/-- `sign`, with the position behind it. -/
def readSign (n : Int) : Nat → Bytes → Option (Int32 × Nat × Bytes)
  | i, [] => if i < n then none else some (1, i, [])
  | i, c :: rest =>
      if i < n then
        if c = '+'.toUInt8 ∨ c = '-'.toUInt8 then
          some (if c = '-'.toUInt8 then -1 else 1, i + 1, rest)
        else some (1, i, c :: rest)
      else some (1, i, c :: rest)

variable (A : IntArith) (spelling : Spelling)

/-- The loop over the digits, and the `return` behind it. -/
def readDigits (n : Int) (sign : Int32) : Nat → Bytes → Int32 → Option Int32
  | i, [], res => if i < n then none else A.mul sign res
  | i, c :: rest, res =>
      if i < n then
        if isDigit c then do
          let d ← A.sub (Int32.ofNat c.toNat) (Int32.ofNat '0'.toNat)
          if spelling.tooLarge res d then some (spelling.limit sign)
          else do
            let tens ← A.mul res 10
            let res ← A.add tens d
            readDigits n sign (i + 1) rest res
        else A.mul sign res
      else A.mul sign res

def read (s : StringView) : Option Int32 := do
  let n := spelling.bound s.bytes.length
  let (i, rest) ← skipSpaces n 0 s.bytes
  let (sign, i, rest) ← readSign n i rest
  readDigits A spelling n sign i rest 0

/-- atoi.cpp: `size_t n = s.size()`. -/
def sizeSpelling : Spelling where
  bound size := size
  tooLarge res d := res > intMax / 10 || (res == intMax / 10 && d > intMax % 10)
  limit sign := if sign = 1 then intMax else intMin

/-- atoi_1.cpp: `int n = s.size()`, which keeps the low 32 bits. -/
def intSpelling : Spelling where
  bound size := (Int32.ofNat size).toInt
  tooLarge res d := res > intMax / 10 || (res == intMax / 10 && d > 7)
  limit sign := if sign = -1 then intMin else intMax

/-- `myAtoi` of atoi.cpp. -/
def myAtoi : StringView → Option Int32 := read A sizeSpelling

/-- `myAtoi` of atoi_1.cpp. -/
def myAtoi₁ : StringView → Option Int32 := read A intSpelling

/-! ## The two spellings -/

/-- What the loop relies on. -/
structure Spelling.Sound : Prop where
  tooLarge_iff : ∀ res d : Int32, 0 ≤ res.toInt → 0 ≤ d.toInt → d.toInt ≤ 9 →
    (spelling.tooLarge res d = true ↔ intMax.toInt < 10 * res.toInt + d.toInt)
  limit_plus : spelling.limit 1 = intMax
  limit_minus : spelling.limit (-1) = intMin

theorem sizeSpelling_sound : sizeSpelling.Sound where
  tooLarge_iff res d _ _ hd := by
    have htenth : (intMax / 10).toInt = 214748364 := by decide
    have hlast : (intMax % 10).toInt = 7 := by decide
    have hmax : intMax.toInt = 2147483647 := by decide
    simp only [sizeSpelling, hmax, Bool.or_eq_true, Bool.and_eq_true, beq_iff_eq,
      decide_eq_true_eq, gt_iff_lt, Int32.lt_iff_toInt_lt, ← Int32.toInt_inj, htenth, hlast]
    omega
  limit_plus := rfl
  limit_minus := by decide

theorem intSpelling_sound : intSpelling.Sound where
  tooLarge_iff res d := by
    have hlast : intMax % 10 = 7 := by decide
    have hsame : intSpelling.tooLarge res d = sizeSpelling.tooLarge res d := by
      simp only [intSpelling, sizeSpelling, hlast]
    rw [hsame]
    exact sizeSpelling_sound.tooLarge_iff res d
  limit_plus := by decide
  limit_minus := rfl

end CppCodes.Source.Atoi
