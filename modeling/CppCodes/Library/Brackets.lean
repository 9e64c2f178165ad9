import Mathlib.Data.List.Infix
import Mathlib.Order.Basic

/-!
# Matching brackets with a stack

A text over any alphabet with one pair of brackets, the rest of the alphabet being
neutral. `height` counts the brackets open before a position; everything about
nesting is said with it. `Matched` pairs an opening bracket with the closing one
that ends it, a one-to-one relation (`closing_unique`, `opening_unique`). A single
pass keeps the open positions on a stack: `Scanned` is its invariant, with one
rule for each kind of letter, and the pass ends with an empty stack on the well
nested texts and on no others.
-/

set_option autoImplicit false

namespace CppCodes.Library

structure Brackets (α : Type*) where
  opening : α
  closing : α
  distinct : opening ≠ closing

namespace Brackets

variable {α : Type*} [DecidableEq α] (b : Brackets α) {text : List α}

/-- The brackets opened and not closed before position `n`. -/
def height (text : List α) (n : Nat) : Int :=
  (text.take n).count b.opening - (text.take n).count b.closing

/-- No prefix closes more brackets than it opens, and the whole opens as many as it
closes. -/
structure WellNested (text : List α) : Prop where
  prefixes : ∀ before, before <+: text → before.count b.closing ≤ before.count b.opening
  whole : text.count b.opening = text.count b.closing

/-- The letters at the positions from `i` on and before `j`. -/
def segment (text : List α) (i j : Nat) : List α := (text.take j).drop i

/-- The bracket opened at `i` is closed at `j`: up to `j` it is never left. -/
structure Matched (text : List α) (i j : Nat) : Prop where
  opens : text[i]? = some b.opening
  closes : text[j]? = some b.closing
  before : i < j
  level : b.height text j = b.height text i + 1
  inside : ∀ m, i < m → m ≤ j → b.height text i + 1 ≤ b.height text m

@[simp] theorem height_zero (text : List α) : b.height text 0 = 0 := by simp [height]

theorem height_succ {n : Nat} {a : α} (h : text[n]? = some a) :
    b.height text (n + 1) =
      b.height text n + (if a = b.opening then 1 else 0) - (if a = b.closing then 1 else 0) := by
  have htake : text.take (n + 1) = text.take n ++ [a] := by
    rw [List.take_add_one, h]
    rfl
  simp only [height, htake, List.count_append, List.count_singleton, beq_iff_eq]
  split <;> split <;> omega

theorem height_opening {n : Nat} (h : text[n]? = some b.opening) :
    b.height text (n + 1) = b.height text n + 1 := by
  simp [b.height_succ h, b.distinct]

theorem height_closing {n : Nat} (h : text[n]? = some b.closing) :
    b.height text (n + 1) = b.height text n - 1 := by
  simp [b.height_succ h, b.distinct.symm]

theorem height_neutral {n : Nat} {a : α} (h : text[n]? = some a) (opening : a ≠ b.opening)
    (closing : a ≠ b.closing) : b.height text (n + 1) = b.height text n := by
  simp [b.height_succ h, opening, closing]

omit [DecidableEq α] in
theorem length_segment {i j : Nat} (hj : j ≤ text.length) :
    (segment text i j).length = j - i := by
  simp [segment, Nat.min_eq_left hj]

/-- Heights of a part of a text are the heights of the whole, from its start. -/
theorem height_segment {i m j : Nat} (him : i ≤ m) (hmj : m ≤ j) :
    b.height (segment text i j) (m - i) = b.height text m - b.height text i := by
  have hpart : (segment text i j).take (m - i) = (text.take m).drop i := by
    rw [segment, ← List.drop_take, List.take_take, Nat.min_eq_left hmj]
  have hwhole : text.take m = text.take i ++ (text.take m).drop i := by
    have hsplit := List.take_append_drop i (text.take m)
    rw [List.take_take, Nat.min_eq_left him] at hsplit
    exact hsplit.symm
  have hopen := congrArg (List.count b.opening) hwhole
  have hclose := congrArg (List.count b.closing) hwhole
  rw [List.count_append] at hopen hclose
  rw [height, hpart, height, height]
  omega

theorem wellNested_iff :
    b.WellNested text ↔
      b.height text text.length = 0 ∧ ∀ m, m ≤ text.length → 0 ≤ b.height text m := by
  have htake : text.take text.length = text := List.take_length
  constructor
  · intro h
    refine ⟨?_, ?_⟩
    · have hwhole := h.whole
      rw [height, htake]
      omega
    · intro m hm
      have hprefix := h.prefixes (text.take m) (List.take_prefix m text)
      rw [height]
      omega
  · intro h
    obtain ⟨hwhole, hprefixes⟩ := h
    refine ⟨?_, ?_⟩
    · intro before hbefore
      have hm := hprefixes before.length hbefore.length_le
      rw [height, ← List.prefix_iff_eq_take.mp hbefore] at hm
      omega
    · rw [height, htake] at hwhole
      omega

/-- Nesting of a part of a text, by its heights in the whole. -/
theorem wellNested_segment_iff {i j : Nat} (hij : i ≤ j) (hj : j ≤ text.length) :
    b.WellNested (segment text i j) ↔
      b.height text j = b.height text i ∧
        ∀ m, i ≤ m → m ≤ j → b.height text i ≤ b.height text m := by
  have hend : b.height (segment text i j) (j - i) = b.height text j - b.height text i :=
    b.height_segment hij (Nat.le_refl j)
  rw [wellNested_iff, length_segment hj, hend]
  constructor
  · intro h
    refine ⟨by omega, ?_⟩
    intro m him hmj
    have hm := h.2 (m - i) (by omega)
    rw [b.height_segment him hmj] at hm
    omega
  · intro h
    refine ⟨by omega, ?_⟩
    intro k hk
    have hm := h.2 (i + k) (by omega) (by omega)
    have hpart : b.height (segment text i j) (i + k - i) = _ :=
      b.height_segment (Nat.le_add_right i k) (show i + k ≤ j by omega)
    rw [Nat.add_sub_cancel_left] at hpart
    omega

namespace Matched

variable {b} {i i' j j' : Nat}

/-- Behind its closing bracket the height is what it was before its opening one. -/
theorem after (h : b.Matched text i j) : b.height text (j + 1) = b.height text i := by
  have hstep := b.height_closing h.closes
  have hlevel := h.level
  omega

theorem not_lt_closing (h : b.Matched text i j) (h' : b.Matched text i j') : ¬ j < j' := by
  intro hlt
  have hbefore := h.before
  have hinside := h'.inside (j + 1) (by omega) hlt
  have hafter := h.after
  omega

theorem closing_unique (h : b.Matched text i j) (h' : b.Matched text i j') : j = j' := by
  have hle := h.not_lt_closing h'
  have hge := h'.not_lt_closing h
  omega

theorem not_lt_opening (h : b.Matched text i j) (h' : b.Matched text i' j) : ¬ i < i' := by
  intro hlt
  have hbefore := h'.before
  have hinside := h.inside i' hlt (by omega)
  have hlevel := h.level
  have hlevel' := h'.level
  omega

theorem opening_unique (h : b.Matched text i j) (h' : b.Matched text i' j) : i = i' := by
  have hle := h.not_lt_opening h'
  have hge := h'.not_lt_opening h
  omega

/-- What stands between two matched brackets is well nested. -/
theorem between (h : b.Matched text i j) : b.WellNested (segment text (i + 1) j) := by
  have hstart := b.height_opening h.opens
  have hend := (List.getElem?_eq_some_iff.mp h.closes).1
  have hlevel := h.level
  rw [b.wellNested_segment_iff (show i + 1 ≤ j from h.before) (by omega)]
  refine ⟨by omega, ?_⟩
  intro m him hmj
  have hinside := h.inside m him hmj
  omega

end Matched

/-! ## The pass -/

/-- The stack holds the open positions, the innermost first: from each of them up
to `n` the text never falls back to the height before it. -/
def Pending (text : List α) (n : Nat) : List Nat → Prop
  | [] => True
  | top :: stack =>
      text[top]? = some b.opening ∧ top < n ∧ b.height text top = stack.length ∧
        (∀ m, top < m → m ≤ n → (stack.length : Int) + 1 ≤ b.height text m) ∧
        Pending text n stack

/-- After `n` letters: the height is the size of the stack and was never negative,
every opening bracket so far is on the stack or matched, every closing one
is matched. -/
structure Scanned (text : List α) (n : Nat) (stack : List Nat) : Prop where
  inside : n ≤ text.length
  pending : b.Pending text n stack
  size : b.height text n = stack.length
  prefixes : ∀ m, m ≤ n → 0 ≤ b.height text m
  openings : ∀ i, i < n → text[i]? = some b.opening →
    i ∈ stack ∨ ∃ j, j < n ∧ b.Matched text i j
  closings : ∀ j, j < n → text[j]? = some b.closing → ∃ i, b.Matched text i j

variable {b}

/-- Positions stay open while the height does not fall below theirs. -/
theorem Pending.step {n : Nat} {stack : List Nat} (h : b.Pending text n stack)
    (level : (stack.length : Int) ≤ b.height text (n + 1)) : b.Pending text (n + 1) stack := by
  induction stack with
  | nil => trivial
  | cons top stack ih =>
    obtain ⟨hopen, hbefore, hlevel, hinside, hrest⟩ := h
    rw [List.length_cons] at level
    refine ⟨hopen, by omega, hlevel, ?_, ih hrest (by omega)⟩
    intro m htop hm
    by_cases hlast : m = n + 1
    · subst hlast
      omega
    · exact hinside m htop (by omega)

namespace Scanned

variable {n : Nat} {stack : List Nat}

theorem start (b : Brackets α) (text : List α) : b.Scanned text 0 [] where
  inside := Nat.zero_le _
  pending := trivial
  size := b.height_zero text
  prefixes m hm := by
    have hzero : m = 0 := by omega
    simp [hzero]
  openings i hi := by omega
  closings j hj := by omega

theorem prefixes_succ (h : b.Scanned text n stack) (level : 0 ≤ b.height text (n + 1)) (m : Nat)
    (hm : m ≤ n + 1) : 0 ≤ b.height text m := by
  by_cases hlast : m = n + 1
  · rw [hlast]
    exact level
  · exact h.prefixes m (by omega)

theorem openings_succ {a : α} (h : b.Scanned text n stack) (here : text[n]? = some a)
    (notOpening : a ≠ b.opening) (i : Nat) (hi : i < n + 1) (hopen : text[i]? = some b.opening) :
    i ∈ stack ∨ ∃ j, j < n + 1 ∧ b.Matched text i j := by
  have hearlier : i ≠ n := by
    intro hlast
    rw [hlast, here, Option.some.injEq] at hopen
    exact notOpening hopen
  cases h.openings i (by omega) hopen with
  | inl hstack => exact Or.inl hstack
  | inr hmatched =>
    obtain ⟨j, hj, hm⟩ := hmatched
    exact Or.inr ⟨j, by omega, hm⟩

theorem closings_succ {a : α} (h : b.Scanned text n stack) (here : text[n]? = some a)
    (notClosing : a ≠ b.closing) (j : Nat) (hj : j < n + 1) (hclose : text[j]? = some b.closing) :
    ∃ i, b.Matched text i j := by
  have hearlier : j ≠ n := by
    intro hlast
    rw [hlast, here, Option.some.injEq] at hclose
    exact notClosing hclose
  exact h.closings j (by omega) hclose

theorem opening (h : b.Scanned text n stack) (here : text[n]? = some b.opening) :
    b.Scanned text (n + 1) (n :: stack) := by
  have hheight := b.height_opening here
  have hsize := h.size
  refine ⟨(List.getElem?_eq_some_iff.mp here).1, ?_, ?_, h.prefixes_succ (by omega), ?_,
    h.closings_succ here b.distinct⟩
  · refine ⟨here, by omega, hsize, ?_, h.pending.step (by omega)⟩
    intro m hm hm'
    have hlast : m = n + 1 := by omega
    subst hlast
    omega
  · rw [List.length_cons]
    omega
  · intro i hi hopen
    by_cases hlast : i = n
    · exact Or.inl (by simp [hlast])
    · cases h.openings i (by omega) hopen with
      | inl hstack => exact Or.inl (List.mem_cons_of_mem n hstack)
      | inr hmatched =>
        obtain ⟨j, hj, hm⟩ := hmatched
        exact Or.inr ⟨j, by omega, hm⟩

/-- A closing bracket ends the innermost open one. -/
theorem matched {top : Nat} (h : b.Scanned text n (top :: stack))
    (here : text[n]? = some b.closing) : b.Matched text top n := by
  obtain ⟨hopen, hbefore, hlevel, hinside, -⟩ := h.pending
  have hsize := h.size
  rw [List.length_cons] at hsize
  refine ⟨hopen, here, hbefore, by omega, ?_⟩
  intro m htop hm
  have hm := hinside m htop hm
  omega

theorem closing {top : Nat} (h : b.Scanned text n (top :: stack))
    (here : text[n]? = some b.closing) : b.Scanned text (n + 1) stack := by
  have hheight := b.height_closing here
  have hsize := h.size
  have hmatched := h.matched here
  rw [List.length_cons] at hsize
  refine ⟨(List.getElem?_eq_some_iff.mp here).1, h.pending.2.2.2.2.step (by omega), by omega,
    h.prefixes_succ (by omega), ?_, ?_⟩
  · intro i hi hopen
    cases h.openings_succ here b.distinct.symm i hi hopen with
    | inl hstack =>
      cases hstack with
      | head => exact Or.inr ⟨n, by omega, hmatched⟩
      | tail _ hstack => exact Or.inl hstack
    | inr hmatched => exact Or.inr hmatched
  · intro j hj hclose
    by_cases hlast : j = n
    · exact ⟨top, hlast ▸ hmatched⟩
    · exact h.closings j (by omega) hclose

theorem neutral {a : α} (h : b.Scanned text n stack) (here : text[n]? = some a)
    (notOpening : a ≠ b.opening) (notClosing : a ≠ b.closing) :
    b.Scanned text (n + 1) stack := by
  have hheight := b.height_neutral here notOpening notClosing
  have hsize := h.size
  exact ⟨(List.getElem?_eq_some_iff.mp here).1, h.pending.step (by omega), by omega,
    h.prefixes_succ (by omega), h.openings_succ here notOpening, h.closings_succ here notClosing⟩

/-- A closing bracket with nothing open: the text is not well nested. -/
theorem stuck (h : b.Scanned text n []) (here : text[n]? = some b.closing) :
    ¬ b.WellNested text := by
  intro hnested
  have hheight := b.height_closing here
  have hsize := h.size
  have hprefix := (b.wellNested_iff.mp hnested).2 (n + 1) (List.getElem?_eq_some_iff.mp here).1
  rw [List.length_nil] at hsize
  omega

/-- At the end of the text the stack tells whether it is well nested. -/
theorem wellNested_iff_nil (h : b.Scanned text text.length stack) :
    b.WellNested text ↔ stack = [] := by
  have hsize := h.size
  rw [b.wellNested_iff, ← List.length_eq_zero_iff]
  constructor
  · intro hnested
    have hwhole := hnested.1
    omega
  · intro hempty
    refine ⟨by omega, h.prefixes⟩

end Scanned

end Brackets

end CppCodes.Library
