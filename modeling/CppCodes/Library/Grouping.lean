import Mathlib.Data.List.Basic
import Mathlib.Tactic.Common

/-!
# Groups counted from the right end

A list is cut so that every group but the first has exactly `k` elements. Whether a cut
comes behind an element depends only on how many elements are still to come, so the list
with separators in it can be written from the left. Splitting it at the separators gives
the groups back.
-/

set_option autoImplicit false

namespace CppCodes.Library.Grouping

variable {α : Type} {k : Nat}

/-- The element joins the first group. -/
def join (x : α) : List (List α) → List (List α)
  | [] => [[x]]
  | g :: gs => (x :: g) :: gs

def groups (k : Nat) : List α → List (List α)
  | [] => []
  | x :: rest =>
      if rest.length % k = 0 ∧ rest.length > 0 then [x] :: groups k rest
      else join x (groups k rest)

/-- The list with a separator between any two groups. -/
def separate (k : Nat) (sep : α) : List α → List α
  | [] => []
  | x :: rest =>
      if rest.length % k = 0 ∧ rest.length > 0 then x :: sep :: separate k sep rest
      else x :: separate k sep rest

/-- The first group may be short but not empty, the others have `k` elements. -/
def CountedFromRight (k : Nat) : List (List α) → Prop
  | [] => False
  | first :: rest => 1 ≤ first.length ∧ first.length ≤ k ∧ ∀ g ∈ rest, g.length = k

@[simp] theorem flatten_join (x : α) (gs : List (List α)) : (join x gs).flatten = x :: gs.flatten := by
  cases gs with
  | nil => rfl
  | cons g gs => simp [join]

@[simp] theorem flatten_groups (l : List α) : (groups k l).flatten = l := by
  induction l with
  | nil => rfl
  | cons x rest ih =>
    rw [groups]
    split
    · simp [ih]
    · simp [ih]

theorem groups_eq_nil {l : List α} (h : groups k l = []) : l = [] := by
  rw [← flatten_groups (k := k) l, h]
  rfl

theorem CountedFromRight.length_mod {first : List α} {rest : List (List α)}
    (h : CountedFromRight k (first :: rest)) :
    (first :: rest).flatten.length % k = first.length % k := by
  obtain ⟨-, -, hrest⟩ := h
  induction rest with
  | nil => simp
  | cons g rest ih =>
    have hg := hrest g (by simp)
    have hshorter := ih fun g' hg' => hrest g' (by simp [hg'])
    simp only [List.flatten_cons, List.length_append] at hshorter ⊢
    rw [hg, Nat.add_left_comm, Nat.add_mod_left, hshorter]

/-- A cut comes exactly where the group behind it is full. -/
theorem groups_counted (hk : 0 < k) {l : List α} (hl : l ≠ []) : CountedFromRight k (groups k l) := by
  induction l with
  | nil => exact absurd rfl hl
  | cons x rest ih =>
    cases hgroups : groups k rest with
    | nil =>
      obtain rfl := groups_eq_nil hgroups
      simp [groups, join, CountedFromRight]
      omega
    | cons first others =>
      have hne : rest ≠ [] := by
        rintro rfl
        cases hgroups
      have hcounted := ih hne
      have hlength := flatten_groups (k := k) rest
      rw [hgroups] at hcounted hlength
      have hmod := hcounted.length_mod
      rw [hlength] at hmod
      obtain ⟨hone, hle, hothers⟩ := hcounted
      have hpos : rest.length > 0 := List.length_pos_of_ne_nil hne
      rw [groups, hgroups]
      split
      · rename_i hcut
        have hfull : first.length = k := by
          by_contra hshort
          rw [hcut.1, Nat.mod_eq_of_lt (by omega)] at hmod
          omega
        simp only [CountedFromRight, List.length_singleton, List.mem_cons, forall_eq_or_imp]
        exact ⟨Nat.le_refl 1, hk, hfull, hothers⟩
      · rename_i hjoin
        have hshort : first.length ≠ k := by
          intro hfull
          rw [hfull, Nat.mod_self] at hmod
          exact hjoin ⟨hmod, hpos⟩
        simp only [join, CountedFromRight, List.length_cons]
        exact ⟨by omega, by omega, hothers⟩

theorem intercalate_join (sep : List α) (x : α) (gs : List (List α)) :
    sep.intercalate (join x gs) = x :: sep.intercalate gs := by
  cases gs with
  | nil => simp [join]
  | cons g gs => simp [join]

theorem separate_eq (k : Nat) (sep : α) (l : List α) :
    separate k sep l = [sep].intercalate (groups k l) := by
  induction l with
  | nil => rfl
  | cons x rest ih =>
    rw [separate, groups]
    split
    · rename_i hcut
      have hne : groups k rest ≠ [] := fun hnil => by
        rw [groups_eq_nil hnil] at hcut
        exact Nat.lt_irrefl 0 hcut.2
      rw [List.intercalate_cons_of_ne_nil hne, ih]
      rfl
    · rw [intercalate_join, ih]

section Separated

variable {sep : α} {l : List α}

/-- Cutting at the separators gives the groups. -/
theorem splitOn_separate [BEq α] [LawfulBEq α] (hsep : sep ∉ l) (hl : l ≠ []) :
    (separate k sep l).splitOn sep = groups k l := by
  rw [separate_eq]
  apply List.splitOn_intercalate
  · intro g hg hin
    apply hsep
    rw [← flatten_groups (k := k) l]
    exact List.mem_flatten.mpr ⟨g, hg, hin⟩
  · exact fun hnil => hl (groups_eq_nil hnil)

theorem filter_separate [DecidableEq α] (hsep : sep ∉ l) :
    (separate k sep l).filter (· ≠ sep) = l := by
  induction l with
  | nil => rfl
  | cons x rest ih =>
    simp only [List.mem_cons, not_or] at hsep
    have hx : x ≠ sep := fun h => hsep.1 h.symm
    rw [separate]
    split
    · simpa [hx] using ih hsep.2
    · simpa [hx] using ih hsep.2

theorem mem_separate {y : α} (hy : y ∈ separate k sep l) : y = sep ∨ y ∈ l := by
  induction l with
  | nil => cases hy
  | cons x rest ih =>
    rw [separate] at hy
    split at hy
    · rcases List.mem_cons.mp hy with rfl | hy
      · exact Or.inr List.mem_cons_self
      · rcases List.mem_cons.mp hy with rfl | hy
        · exact Or.inl rfl
        · exact (ih hy).imp_right (List.mem_cons_of_mem x)
    · rcases List.mem_cons.mp hy with rfl | hy
      · exact Or.inr List.mem_cons_self
      · exact (ih hy).imp_right (List.mem_cons_of_mem x)

@[simp] theorem head?_separate : (separate k sep l).head? = l.head? := by
  cases l with
  | nil => rfl
  | cons x rest =>
    rw [separate]
    split <;> rfl

@[simp] theorem getLast?_separate : (separate k sep l).getLast? = l.getLast? := by
  induction l with
  | nil => rfl
  | cons x rest ih =>
    rw [separate]
    split
    · rename_i hcut
      rw [List.getLast?_cons, List.getLast?_cons, ih, List.getLast?_cons]
      cases rest with
      | nil => exact absurd hcut.2 (Nat.lt_irrefl 0)
      | cons y rest => simp [List.getLast?_cons]
    · rw [List.getLast?_cons, ih, List.getLast?_cons]

end Separated

end CppCodes.Library.Grouping
