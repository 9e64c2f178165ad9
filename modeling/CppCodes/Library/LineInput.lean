import Mathlib.Data.List.Basic
import Mathlib.Data.List.TakeWhile
import Mathlib.Tactic.Common

/-!
# Texts as lines

A line ends at a terminator or at the end of the text; a terminator at the end begins no
further line. `getline` takes the first line off a text, and `joinLines` puts a terminator
behind each line. A text that grows at its end keeps the lines that are ended.
-/

set_option autoImplicit false

namespace CppCodes.Library.LineInput

variable {α : Type*} (stop : α)

def joinLines (lines : List (List α)) : List α := lines.flatMap (· ++ [stop])

@[simp] theorem joinLines_append {lines more : List (List α)} :
    joinLines stop (lines ++ more) = joinLines stop lines ++ joinLines stop more :=
  List.flatMap_append

@[simp] theorem joinLines_singleton {line : List α} : joinLines stop [line] = line ++ [stop] := by
  simp [joinLines]

variable [DecidableEq α]

def splitLines : List α → List (List α)
  | [] => []
  | a :: text =>
      if a = stop then [] :: splitLines text
      else match splitLines text with
        | [] => [[a]]
        | line :: lines => (a :: line) :: lines

/-- The first line and what follows it. -/
def getline : List α → Option (List α × List α)
  | [] => none
  | a :: text =>
      some ((a :: text).takeWhile (· ≠ stop), ((a :: text).dropWhile (· ≠ stop)).tail)

variable {stop} {line text : List α} {lines : List (List α)}

/-- A line that is ended. -/
theorem splitLines_append (h : stop ∉ line) :
    splitLines stop (line ++ stop :: text) = line :: splitLines stop text := by
  induction line with
  | nil => simp [splitLines]
  | cons a line ih =>
    obtain ⟨hne, hline⟩ := List.ne_and_not_mem_of_not_mem_cons h
    simp [splitLines, hne.symm, ih hline]

/-- A text without a terminator. -/
theorem splitLines_of_notMem (hne : line ≠ []) (h : stop ∉ line) :
    splitLines stop line = [line] := by
  induction line with
  | nil => exact absurd rfl hne
  | cons a line ih =>
    obtain ⟨hstop, hline⟩ := List.ne_and_not_mem_of_not_mem_cons h
    cases line with
    | nil => simp [splitLines, hstop.symm]
    | cons b line =>
      have hrest := ih (List.cons_ne_nil b line) hline
      rw [splitLines, if_neg hstop.symm, hrest]

theorem splitLines_joinLines_append (h : ∀ line ∈ lines, stop ∉ line) :
    splitLines stop (joinLines stop lines ++ text) = lines ++ splitLines stop text := by
  induction lines with
  | nil => rfl
  | cons line lines ih =>
    have hline : stop ∉ line := h line List.mem_cons_self
    have hrest := ih fun l hl => h l (List.mem_cons_of_mem _ hl)
    have hcons : joinLines stop (line :: lines) ++ text =
        line ++ stop :: (joinLines stop lines ++ text) := by
      simp [joinLines]
    rw [hcons, splitLines_append hline, hrest, List.cons_append]

/-- A line of a text is ended, or it is what is left of the text. -/
theorem getline_spec {rest : List α} (h : getline stop text = some (line, rest)) :
    stop ∉ line ∧ (text = line ++ stop :: rest ∨ text = line ∧ line ≠ [] ∧ rest = []) := by
  cases text with
  | nil => cases h
  | cons a text =>
    simp only [getline, Option.some.injEq, Prod.mk.injEq] at h
    obtain ⟨rfl, rfl⟩ := h
    constructor
    · intro hmem
      have hcond := List.mem_takeWhile_imp hmem
      simp at hcond
    · have hsplit := List.takeWhile_append_dropWhile (p := (· ≠ stop)) (l := a :: text)
      cases hdrop : (a :: text).dropWhile (· ≠ stop) with
      | nil =>
        rw [hdrop, List.append_nil] at hsplit
        refine Or.inr ⟨hsplit.symm, ?_, rfl⟩
        intro hnone
        rw [hsplit] at hnone
        cases hnone
      | cons b rest =>
        have hb : b = stop := by
          have hhead := List.head?_dropWhile_not (· ≠ stop) (a :: text)
          rw [hdrop] at hhead
          simpa using hhead
        rw [hdrop, hb] at hsplit
        exact Or.inl hsplit.symm

theorem getline_eq_none_iff : getline stop text = none ↔ text = [] := by
  cases text <;> simp [getline]

end CppCodes.Library.LineInput
