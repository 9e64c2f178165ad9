import Mathlib.Data.List.Count
import Mathlib.Data.List.Perm.Basic
import Mathlib.Data.List.Sort
import Mathlib.Order.Lattice
import Mathlib.Tactic.Common

/-!
# Order statistics

The element of rank `n` of a list has at most `n` elements before it, and with the ones equal
to it more than `n`. It does not depend on the order of the list; it is below a bound exactly
when more than `n` elements are (`IsNth.le_iff`), and grows with `n`. In a sorted list it is
the one at the index `n`, and so it is behind a partition that puts nothing greater before the
index and nothing smaller behind it.
-/

set_option autoImplicit false

namespace CppCodes.Library

variable {α β : Type*} [LinearOrder β]

structure IsNth (n : Nat) (v : List β) (x : β) : Prop where
  before : v.countP (· < x) ≤ n
  within : n < v.countP (· ≤ x)

variable {n m : Nat} {v v' : List β} {x y b : β}

theorem countP_lt_le_countP_le (h : x ≤ y) (v : List β) : v.countP (· ≤ x) ≤ v.countP (· ≤ y) :=
  List.countP_mono_left fun z _ hz => by
    simp only [decide_eq_true_eq] at hz ⊢
    exact hz.trans h

namespace IsNth

/-- It is below a bound when enough elements are. -/
theorem le_iff (h : IsNth n v x) : x ≤ b ↔ n < v.countP (· ≤ b) := by
  constructor
  · intro hxb
    exact h.within.trans_le (countP_lt_le_countP_le hxb v)
  · intro hcount
    by_contra hlt
    rw [not_le] at hlt
    have hless : v.countP (· ≤ b) ≤ v.countP (· < x) :=
      List.countP_mono_left fun z _ hz => by
        simp only [decide_eq_true_eq] at hz ⊢
        exact hz.trans_lt hlt
    exact absurd (hcount.trans_le (hless.trans h.before)) (lt_irrefl n)

theorem lt_iff (h : IsNth n v x) : b ≤ x ↔ v.countP (· < b) ≤ n := by
  constructor
  · intro hbx
    refine (List.countP_mono_left fun z _ hz => ?_).trans h.before
    simp only [decide_eq_true_eq] at hz ⊢
    exact hz.trans_le hbx
  · intro hcount
    by_contra hlt
    rw [not_le] at hlt
    have hmore : v.countP (· ≤ x) ≤ v.countP (· < b) :=
      List.countP_mono_left fun z _ hz => by
        simp only [decide_eq_true_eq] at hz ⊢
        exact hz.trans_lt hlt
    exact absurd (h.within.trans_le (hmore.trans hcount)) (lt_irrefl n)

theorem mono (h : IsNth m v x) (h' : IsNth n v y) (hmn : m ≤ n) : x ≤ y :=
  h.le_iff.mpr (hmn.trans_lt h'.within)

theorem unique (h : IsNth n v x) (h' : IsNth n v y) : x = y :=
  le_antisymm (h.mono h' le_rfl) (h'.mono h le_rfl)

theorem perm (h : IsNth n v x) (hperm : v.Perm v') : IsNth n v' x := by
  constructor
  · rw [← hperm.countP_eq]
    exact h.before
  · rw [← hperm.countP_eq]
    exact h.within

theorem mem (h : IsNth n v x) : x ∈ v := by
  by_contra hmem
  have hsame : v.countP (· ≤ x) = v.countP (· < x) := by
    refine List.countP_congr fun z hz => ?_
    have hne : z ≠ x := fun he => hmem (he ▸ hz)
    simp [lt_iff_le_and_ne, hne]
  have hwithin := h.within
  rw [hsame] at hwithin
  exact absurd (hwithin.trans_le h.before) (lt_irrefl n)

end IsNth

/-- Nothing greater stands before the index and nothing smaller behind it. -/
theorem isNth_of_partition (hn : n < v.length) (hbefore : ∀ y ∈ v.take n, y ≤ v[n])
    (hbehind : ∀ y ∈ v.drop (n + 1), v[n] ≤ y) : IsNth n v v[n] := by
  have hsplit : v = v.take n ++ v[n] :: v.drop (n + 1) := by
    rw [← List.drop_eq_getElem_cons hn, List.take_append_drop]
  have hcount (p : β → Bool) :
      v.countP p = (v.take n).countP p + (v[n] :: v.drop (n + 1)).countP p := by
    rw [← List.countP_append]
    exact congrArg (List.countP p) hsplit
  have hlength : (v.take n).length = n := by
    rw [List.length_take]
    omega
  have hnone : (v.drop (n + 1)).countP (· < v[n]) = 0 := by
    rw [List.countP_eq_zero]
    intro y hy
    simpa using hbehind y hy
  have hall : (v.take n).countP (· ≤ v[n]) = n := by
    rw [List.countP_eq_length.mpr, hlength]
    intro y hy
    simpa using hbefore y hy
  constructor
  · rw [hcount, List.countP_cons_of_neg (by simp), hnone]
    exact List.countP_le_length.trans hlength.le
  · rw [hcount, hall, List.countP_cons_of_pos (by simp)]
    omega

theorem isNth_of_sorted (hsorted : v.Pairwise (· ≤ ·)) (hn : n < v.length) : IsNth n v v[n] := by
  have hsplit : v = v.take n ++ v[n] :: v.drop (n + 1) := by
    rw [← List.drop_eq_getElem_cons hn, List.take_append_drop]
  have hparts : (v.take n ++ v[n] :: v.drop (n + 1)).Pairwise (· ≤ ·) := by
    rw [← hsplit]
    exact hsorted
  obtain ⟨-, hrest, hcross⟩ := List.pairwise_append.mp hparts
  exact isNth_of_partition hn (fun y hy => hcross y hy _ List.mem_cons_self)
    (List.pairwise_cons.mp hrest).1

theorem pairwise_mergeSort (v : List β) : (v.mergeSort (· ≤ ·)).Pairwise (· ≤ ·) := by
  have hpairs : (v.mergeSort (· ≤ ·)).Pairwise fun a b => decide (a ≤ b) = true := by
    apply List.pairwise_mergeSort
    · intro a b c hab hbc
      simp only [decide_eq_true_eq] at hab hbc ⊢
      exact hab.trans hbc
    · intro a b
      simp only [Bool.or_eq_true, decide_eq_true_eq]
      exact le_total a b
  exact hpairs.imp fun h => of_decide_eq_true h

/-- A sorted copy of the list has the element at the index. -/
theorem isNth_mergeSort (hn : n < v.length) : ∃ x, (v.mergeSort (· ≤ ·))[n]? = some x ∧ IsNth n v x := by
  have hperm := List.mergeSort_perm v (· ≤ ·)
  rw [← hperm.length_eq] at hn
  exact ⟨_, List.getElem?_eq_getElem hn, (isNth_of_sorted (pairwise_mergeSort v) hn).perm hperm⟩

end CppCodes.Library
