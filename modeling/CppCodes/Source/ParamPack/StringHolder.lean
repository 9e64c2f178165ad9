import Mathlib.Algebra.Ring.Nat
import Mathlib.Tactic.Common

/-!
# Strings made of template arguments

Source: param_pack/param_pack.cpp:190-228. A pack of characters is a list, a type
`string_holder<Cs...>` the list of its characters. `char` is a signed octet. A constant
that is given for a parameter of type `char` has to be one of its values; what does not
compile for that reason has no value here.
-/

set_option autoImplicit false

namespace CppCodes.Source.ParamPack

def char (c : Char) : Int8 := Int8.ofNat c.toNat

/-- A constant as a template argument of type `char`. -/
def charArgument (v : Int) : Option Int8 :=
  if -128 ≤ v ∧ v ≤ 127 then some (Int8.ofInt v) else none

structure StringHolder where
  chars : List Int8
  deriving DecidableEq

namespace StringHolder

def len (h : StringHolder) : Nat := h.chars.length

def value (h : StringHolder) : List Int8 := h.chars ++ [0]

/-- The conversion to `std::string`. -/
def toStdString (h : StringHolder) : List Int8 := h.value.take h.len

/-- What is read through the conversion to `const char *`. -/
def cString (h : StringHolder) : List Int8 := h.value.takeWhile (· ≠ 0)

@[simp] theorem toStdString_eq (h : StringHolder) : h.toStdString = h.chars := by
  simp [toStdString, value, len]

theorem cString_eq {h : StringHolder} (hzero : 0 ∉ h.chars) : h.cString = h.chars := by
  rw [cString, value, List.takeWhile_append_of_pos]
  · simp
  · intro c hc
    simpa using fun h0 : c = 0 => hzero (h0 ▸ hc)

end StringHolder

/-- `index_string<N, Cs...>()` -/
def indexString (n : UInt64) (cs : List Int8) : Option StringHolder :=
  if _ : n < 10 then
    match charArgument (n + '0'.toNat.toUInt64).toNat with
    | none => none
    | some c => some ⟨c :: cs⟩
  else
    match charArgument (n % 10 + '0'.toNat.toUInt64).toNat with
    | none => none
    | some c => indexString (n / 10) (c :: cs)
termination_by n.toNat
decreasing_by
  rename_i hn
  rw [UInt64.lt_iff_toNat_lt, Nat.not_lt] at hn
  rw [UInt64.toNat_div]
  exact Nat.div_lt_self (Nat.lt_of_lt_of_le (by decide) hn) (by decide)

/-- `add_commas(string_holder<In...>{}, string_holder<Out...>{})` -/
def addCommas : List Int8 → List Int8 → StringHolder
  | [], out => ⟨out⟩
  | in0 :: inRest, out =>
      if inRest.length % 3 = 0 ∧ inRest.length > 0 then
        addCommas inRest (out ++ [in0, char ','])
      else addCommas inRest (out ++ [in0])

end CppCodes.Source.ParamPack
