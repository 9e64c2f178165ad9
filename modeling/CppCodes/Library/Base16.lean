import Mathlib.Data.List.Basic
import Mathlib.Tactic.Common

/-!
# Octets as pairs of digits

`Pairs stands bytes text`: the text has two characters for each byte, the one for the
higher four bits first. Which characters stand for a digit is left open; there may be
several.
-/

set_option autoImplicit false

namespace CppCodes.Library.Base16

variable {χ : Type}

inductive Pairs (stands : χ → Nat → Prop) : List UInt8 → List χ → Prop where
  | nil : Pairs stands [] []
  | cons {b : UInt8} {bytes : List UInt8} {high low : χ} {text : List χ}
      (hhigh : stands high (b.toNat / 16)) (hlow : stands low (b.toNat % 16))
      (hrest : Pairs stands bytes text) : Pairs stands (b :: bytes) (high :: low :: text)

namespace Pairs

variable {stands : χ → Nat → Prop} {bytes : List UInt8} {text : List χ}

theorem length_eq (h : Pairs stands bytes text) : text.length = 2 * bytes.length := by
  induction h with
  | nil => rfl
  | cons hhigh hlow hrest ih =>
    simp only [List.length_cons, ih]
    omega

/-- Only digits are written. -/
theorem exists_of_mem (h : Pairs stands bytes text) {c : χ} (hc : c ∈ text) :
    ∃ d < 16, stands c d := by
  induction h with
  | nil => cases hc
  | @cons b bytes high low text hhigh hlow hrest ih =>
    have hb := b.toNat_lt
    rcases List.mem_cons.mp hc with rfl | hc
    · exact ⟨b.toNat / 16, by omega, hhigh⟩
    · rcases List.mem_cons.mp hc with rfl | hc
      · exact ⟨b.toNat % 16, by omega, hlow⟩
      · exact ih hc

end Pairs

end CppCodes.Library.Base16
