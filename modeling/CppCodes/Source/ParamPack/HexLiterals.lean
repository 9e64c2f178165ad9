import CppCodes.Source.ParamPack.StringHolder

/-!
# Hexadecimal literals

Source: param_pack/param_pack.cpp:332-367. The operators are called with the characters of
the literal, the prefix included. An index outside the array has no value: it is undefined
at run time and does not compile in a constant.
-/

set_option autoImplicit false

namespace CppCodes.Source.ParamPack

def hexdigit (c : Int8) : Int32 :=
  if char '0' ≤ c ∧ c ≤ char '9' then c.toInt32 - (char '0').toInt32
  else
    let c := (c.toInt32 ||| 0x20).toInt8
    if char 'a' ≤ c ∧ c ≤ char 'f' then c.toInt32 - ((char 'a').toInt32 - 10) else -1

/-- The `requires` clause, the same for both operators. -/
def accepts (cs : List Int8) : Bool :=
  cs.length % 2 == 0 &&
    match cs with
    | zero :: x :: rest => zero == char '0' && x == char 'x' && rest.all (hexdigit · != -1)
    | _ => false

/-- `hexdigit(digits[i])<<4 | hexdigit(digits[i+1])` -/
def hexPair (digits : List Int8) (i : Nat) : Option Int32 :=
  match digits[i]?, digits[i + 1]? with
  | some high, some low => some (hexdigit high <<< 4 ||| hexdigit low)
  | _, _ => none

/-- The loop of `operator""_hex`. -/
def hexFrom (digits : List Int8) (i : Nat) (result : List Int8) : Option (List Int8) :=
  if i < digits.length then
    match hexPair digits i with
    | none => none
    | some v => hexFrom digits (i + 2) (result ++ [v.toInt8])
  else some result
termination_by digits.length - i

/-- `operator""_hex` -/
def hex (cs : List Int8) : Option (List Int8) :=
  if accepts cs then hexFrom cs 2 [] else none

/-- `operator""_hex2` -/
def hex2 (cs : List Int8) : Option StringHolder :=
  if accepts cs then
    ((List.range (cs.length / 2 - 1)).mapM fun i =>
      (hexPair cs (2 * i + 2)).bind fun v => charArgument v.toInt).map StringHolder.mk
  else none

end CppCodes.Source.ParamPack
