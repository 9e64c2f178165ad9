import Mathlib.Algebra.Ring.Int.Defs

/-!
# `int` arithmetic

An operation on two `int`s whose exact result is an `int` gives that result. What
happens on overflow is not defined; an `IntArith` is one choice of it: `checked`
makes the overflow visible as `none`, `wrapping` is what a processor without a
trap computes. A result that is the same for every `IntArith` was reached without
an overflow.
-/

set_option autoImplicit false

namespace CppCodes.Library

structure IntArith where
  fit : Int → Option Int32
  fit_eq : ∀ v, -2 ^ 31 ≤ v → v < 2 ^ 31 → fit v = some (Int32.ofInt v)

namespace IntArith

def checked : IntArith where
  fit v := if -2 ^ 31 ≤ v ∧ v < 2 ^ 31 then some (Int32.ofInt v) else none
  fit_eq _ low high := if_pos ⟨low, high⟩

def wrapping : IntArith where
  fit v := some (Int32.ofInt v)
  fit_eq _ _ _ := rfl

variable (A : IntArith)

def add (a b : Int32) : Option Int32 := A.fit (a.toInt + b.toInt)
def sub (a b : Int32) : Option Int32 := A.fit (a.toInt - b.toInt)
def mul (a b : Int32) : Option Int32 := A.fit (a.toInt * b.toInt)
def neg (a : Int32) : Option Int32 := A.fit (-a.toInt)

/-- In the range of `int` the octets of a number are not cut. -/
theorem toInt_ofInt {v : Int} (low : -2 ^ 31 ≤ v) (high : v < 2 ^ 31) :
    (Int32.ofInt v).toInt = v :=
  Int32.toInt_ofInt_of_le (by omega) (by omega)

theorem fit_some {v : Int} (low : -2 ^ 31 ≤ v) (high : v < 2 ^ 31) :
    ∃ a, A.fit v = some a ∧ a.toInt = v :=
  ⟨Int32.ofInt v, A.fit_eq v low high, toInt_ofInt low high⟩

variable {a b : Int32}

theorem add_some (low : -2 ^ 31 ≤ a.toInt + b.toInt) (high : a.toInt + b.toInt < 2 ^ 31) :
    ∃ c, A.add a b = some c ∧ c.toInt = a.toInt + b.toInt := A.fit_some low high

theorem sub_some (low : -2 ^ 31 ≤ a.toInt - b.toInt) (high : a.toInt - b.toInt < 2 ^ 31) :
    ∃ c, A.sub a b = some c ∧ c.toInt = a.toInt - b.toInt := A.fit_some low high

theorem mul_some (low : -2 ^ 31 ≤ a.toInt * b.toInt) (high : a.toInt * b.toInt < 2 ^ 31) :
    ∃ c, A.mul a b = some c ∧ c.toInt = a.toInt * b.toInt := A.fit_some low high

theorem neg_some (low : -2 ^ 31 < a.toInt) :
    ∃ c, A.neg a = some c ∧ c.toInt = -a.toInt := by
  have hhigh := a.toInt_lt
  exact A.fit_some (by omega) (by omega)

theorem checked_fit_eq_none {v : Int} (high : 2 ^ 31 ≤ v) : checked.fit v = none := by
  have hrange : ¬ (-2 ^ 31 ≤ v ∧ v < 2 ^ 31) := by omega
  exact if_neg hrange

end IntArith

end CppCodes.Library
