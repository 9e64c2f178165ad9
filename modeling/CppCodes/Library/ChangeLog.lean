import Mathlib.Data.PNat.Basic
import Mathlib.Logic.Function.Basic
import Mathlib.Tactic.Common

/-!
# Catching up with a log of changes

Every location has a value, and changes numbered 1, 2, 3, … set one location each;
a number may go unused. A report for a range of numbers lists the locations
changed in the range with the values they have at its end. A copy that is behind
may take a report that starts too early, since what it lists is current at the
end of the range, but none that starts too late.
-/

set_option autoImplicit false

namespace CppCodes.Library

structure ChangeLog (L V : Type*) where
  initial : L → V
  change : ℕ+ → Option (L × V)

namespace ChangeLog

variable {L V : Type*} [DecidableEq L] (log : ChangeLog L V)

/-- The values after all changes with numbers up to `k`. -/
def after : Nat → L → V
  | 0 => log.initial
  | k + 1 =>
      match log.change k.succPNat with
      | none => after k
      | some (l, v) => Function.update (after k) l v

/-- A change with a number from `first` to `last` sets `l`. -/
def Changed (first last : Int) (l : L) : Prop :=
  ∃ k : ℕ+, first ≤ (k : ℕ) ∧ ((k : ℕ) : Int) ≤ last ∧ ∃ v, log.change k = some (l, v)

/-- No change has a number from `first` to `last`. -/
def Unused (first last : Int) : Prop :=
  ∀ k : ℕ+, first ≤ (k : ℕ) → ((k : ℕ) : Int) ≤ last → log.change k = none

structure Reports (first last : Int) (listed : List (L × V)) : Prop where
  current : ∀ e ∈ listed, e.2 = log.after last.toNat e.1
  complete : ∀ l, log.Changed first last l → l ∈ listed.map Prod.fst

/-- A copy of the values overwritten with a list of new ones, first to last. -/
def patch (f : L → V) (listed : List (L × V)) : L → V :=
  listed.foldl (fun f e => Function.update f e.1 e.2) f

theorem after_eq_of_not_changed {i j : Nat} (h : i ≤ j) {l : L}
    (quiet : ¬ log.Changed (i + 1) j l) : log.after j l = log.after i l := by
  induction j with
  | zero =>
    have hi : i = 0 := Nat.le_zero.mp h
    rw [hi]
  | succ j ih =>
    by_cases hij : i = j + 1
    · rw [hij]
    · have hstep : ¬ log.Changed (i + 1) j l := by
        intro hparts
        obtain ⟨k, hfirst, hlast, hset⟩ := hparts
        exact quiet ⟨k, hfirst, by omega, hset⟩
      rw [← ih (by omega) hstep, after]
      cases hchange : log.change j.succPNat with
      | none => rfl
      | some set =>
        obtain ⟨l', v⟩ := set
        have hne : l ≠ l' := by
          intro he
          subst he
          have hcoe : (j.succPNat : ℕ) = j + 1 := Nat.succPNat_coe j
          exact quiet ⟨j.succPNat, by omega, by omega, v, hchange⟩
        exact Function.update_of_ne hne _ _

/-- Entries that agree with one target leave the target where they are, and nothing
else changed. -/
theorem patch_apply {f g : L → V} {listed : List (L × V)} (h : ∀ e ∈ listed, e.2 = g e.1) (l : L) :
    patch f listed l = if l ∈ listed.map Prod.fst then g l else f l := by
  induction listed generalizing f with
  | nil => simp [patch]
  | cons e rest ih =>
    have hhead : e.2 = g e.1 := h e List.mem_cons_self
    have hstep : patch f (e :: rest) = patch (Function.update f e.1 e.2) rest := rfl
    rw [hstep, ih fun e' he' => h e' (List.mem_cons_of_mem _ he')]
    by_cases hrest : l ∈ rest.map Prod.fst
    · rw [if_pos hrest, if_pos (by simpa using Or.inr (by simpa using hrest))]
    · rw [if_neg hrest]
      by_cases he : l = e.1
      · rw [he, Function.update_self, if_pos (by simp), hhead]
      · rw [Function.update_of_ne he, if_neg (by simpa [he] using hrest)]

/-- A report brings a copy from `i` to the end of its range if no change in between
is missing from it. -/
theorem patch_reports {i : Nat} {first last : Int} {listed : List (L × V)}
    (reports : log.Reports first last listed) (behind : i ≤ last)
    (unused : log.Unused (i + 1) (first - 1)) :
    patch (log.after i) listed = log.after last.toNat := by
  funext l
  rw [patch_apply reports.current]
  by_cases hl : l ∈ listed.map Prod.fst
  · rw [if_pos hl]
  · rw [if_neg hl]
    refine (log.after_eq_of_not_changed (by omega) ?_).symm
    intro hparts
    obtain ⟨k, hfirst, hlast, v, hset⟩ := hparts
    by_cases hk : first ≤ (k : ℕ)
    · exact hl (reports.complete l ⟨k, hk, by omega, v, hset⟩)
    · have hnone := unused k hfirst (by omega)
      rw [hset] at hnone
      cases hnone

end ChangeLog

end CppCodes.Library
