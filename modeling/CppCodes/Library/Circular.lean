import Mathlib.Data.List.Basic
import Mathlib.Tactic.Common
import Mathlib.Tactic.SplitIfs

/-!
# Circular index ranges

Positions of a ring of `n` cells, the range from `tail` up to (excluding) `head`
and what moving either end does to it. One cell stays free, so an empty range
and a full one are told apart: `tail = head` is empty and `advance head = tail`
is full.
-/

set_option autoImplicit false

namespace CppCodes.Library.Circular

variable {n : Nat}

/-- The next position, modulo the number of cells. -/
def advance (i : Fin n) : Fin n := ⟨(i.val + 1) % n, Nat.mod_lt _ (Nat.lt_of_le_of_lt (Nat.zero_le _) i.isLt)⟩

theorem advance_val (i : Fin n) : (advance i).val = if i.val + 1 = n then 0 else i.val + 1 := by
  have hi := i.isLt
  unfold advance
  split
  · next h => simp [h]
  · exact Nat.mod_eq_of_lt (by omega)

theorem advance_injective : Function.Injective (advance (n := n)) := by
  intro i j h
  have hval := congrArg Fin.val h
  have hi := i.isLt
  have hj := j.isLt
  simp only [advance_val] at hval
  apply Fin.ext
  split at hval <;> split at hval <;> omega

/-- Number of cells from `tail` up to `head`. -/
def occupied (tail head : Fin n) : Nat :=
  if tail.val ≤ head.val then head.val - tail.val else n - (tail.val - head.val)

/-- The cell `i` places after `tail`. -/
def offset (tail : Fin n) (i : Nat) : Fin n :=
  ⟨(tail.val + i) % n, Nat.mod_lt _ (Nat.lt_of_le_of_lt (Nat.zero_le _) tail.isLt)⟩

theorem offset_val (tail : Fin n) (i : Nat) : (offset tail i).val = (tail.val + i) % n := rfl

/-- The cells from `tail` up to `head`, oldest first. -/
def cells (tail head : Fin n) : List (Fin n) := (List.range (occupied tail head)).map (offset tail)

@[simp] theorem cells_length (tail head : Fin n) : (cells tail head).length = occupied tail head := by
  simp [cells]

theorem occupied_lt (tail head : Fin n) : occupied tail head < n := by
  have ht := tail.isLt
  have hh := head.isLt
  unfold occupied
  split <;> omega

theorem occupied_eq_zero_iff (tail head : Fin n) : occupied tail head = 0 ↔ tail = head := by
  have ht := tail.isLt
  have hh := head.isLt
  rw [Fin.ext_iff]
  unfold occupied
  split <;> omega

theorem cells_eq_nil_iff (tail head : Fin n) : cells tail head = [] ↔ tail = head := by
  rw [← List.length_eq_zero_iff, cells_length, occupied_eq_zero_iff]

/-- All cells but one are occupied exactly when `head` would run into `tail`. -/
theorem occupied_full_iff (tail head : Fin n) : occupied tail head = n - 1 ↔ advance head = tail := by
  have ht := tail.isLt
  have hh := head.isLt
  rw [Fin.ext_iff, advance_val]
  unfold occupied
  split <;> split <;> omega

theorem occupied_advance_head (tail head : Fin n) (h : advance head ≠ tail) :
    occupied tail (advance head) = occupied tail head + 1 := by
  have ht := tail.isLt
  have hh := head.isLt
  rw [Ne, Fin.ext_iff, advance_val] at h
  simp only [occupied, advance_val]
  split_ifs at h ⊢ <;> omega

theorem occupied_advance_tail (tail head : Fin n) (h : tail ≠ head) :
    occupied tail head = occupied (advance tail) head + 1 := by
  have ht := tail.isLt
  have hh := head.isLt
  rw [Ne, Fin.ext_iff] at h
  simp only [occupied, advance_val]
  split_ifs <;> omega

theorem offset_occupied (tail head : Fin n) : offset tail (occupied tail head) = head := by
  have ht := tail.isLt
  have hh := head.isLt
  apply Fin.ext
  rw [offset_val]
  unfold occupied
  split
  · rw [Nat.mod_eq_of_lt] <;> omega
  · have hsum : tail.val + (n - (tail.val - head.val)) = head.val + n := by omega
    rw [hsum, Nat.add_mod_right]
    exact Nat.mod_eq_of_lt hh

theorem offset_advance (tail : Fin n) (i : Nat) : offset (advance tail) i = offset tail (i + 1) := by
  apply Fin.ext
  rw [offset_val, offset_val, advance, Nat.mod_add_mod]
  congr 1
  omega

/-- Appending at the head: the old head cell becomes the newest one. -/
theorem cells_advance_head (tail head : Fin n) (h : advance head ≠ tail) :
    cells tail (advance head) = cells tail head ++ [head] := by
  unfold cells
  rw [occupied_advance_head tail head h, List.range_succ, List.map_append, List.map_cons,
    List.map_nil, offset_occupied]

/-- Removing at the tail: the old tail cell was the oldest one. -/
theorem cells_advance_tail (tail head : Fin n) (h : tail ≠ head) :
    cells tail head = tail :: cells (advance tail) head := by
  have hzero : offset tail 0 = tail := by
    apply Fin.ext
    exact Nat.mod_eq_of_lt tail.isLt
  unfold cells
  rw [occupied_advance_tail tail head h, List.range_succ_eq_map, List.map_cons, hzero, List.map_map]
  congr 1
  apply List.map_congr_left
  intro i _
  exact (offset_advance tail i).symm

/-- The head cell itself is free. -/
theorem head_not_mem_cells (tail head : Fin n) : head ∉ cells tail head := by
  intro h
  obtain ⟨i, hi, he⟩ := List.mem_map.mp h
  have hlt := List.mem_range.mp hi
  have ht := tail.isLt
  have hh := head.isLt
  have hval := congrArg Fin.val he
  unfold occupied at hlt
  simp only [offset] at hval
  rcases Nat.lt_or_ge (tail.val + i) n with hsmall | hlarge
  · rw [Nat.mod_eq_of_lt hsmall] at hval
    split at hlt <;> omega
  · rw [Nat.mod_eq_sub_mod hlarge] at hval
    split at hlt
    · omega
    · rw [Nat.mod_eq_of_lt (by omega)] at hval
      omega

end CppCodes.Library.Circular
