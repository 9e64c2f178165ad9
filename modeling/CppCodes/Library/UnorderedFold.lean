import Mathlib.Data.List.ProdSigma
import Mathlib.Data.List.Range
import Mathlib.Data.Multiset.Bind

/-!
# Loops whose order does not matter

A loop over a list whose steps commute, where they succeed and where they fail, depends on the
elements only and not on their order. Nested loops are one loop over the pairs, and those of a
row after the other are those of a column after the other.
-/

set_option autoImplicit false

namespace CppCodes.Library

variable {σ α β : Type*} {f : σ → α → Option σ} {l l' : List α}

/-- Two steps may be exchanged. -/
def StepsCommute (f : σ → α → Option σ) : Prop :=
  ∀ s x y, (f s x).bind (fun t => f t y) = (f s y).bind fun t => f t x

theorem StepsCommute.foldlM_perm (comm : StepsCommute f) (h : l.Perm l') (s : σ) :
    l.foldlM f s = l'.foldlM f s := by
  induction h generalizing s with
  | nil => rfl
  | cons x h ih =>
    rw [List.foldlM_cons, List.foldlM_cons]
    cases hx : f s x with
    | none => rfl
    | some t => exact ih t
  | swap x y l =>
    have hcomm := comm s y x
    simp only [List.foldlM_cons, Option.bind_eq_bind]
    rw [← Option.bind_assoc, ← Option.bind_assoc, hcomm]
  | trans h h' ih ih' => exact (ih s).trans (ih' s)

/-- A loop in a loop is one loop. -/
theorem foldlM_nested (g : β → List α) (rows : List β) (s : σ) :
    rows.foldlM (fun s row => (g row).foldlM f s) s = (rows.flatMap g).foldlM f s := by
  induction rows generalizing s with
  | nil => rfl
  | cons row rows ih =>
    rw [List.foldlM_cons, List.flatMap_cons, List.foldlM_append]
    congr 1
    funext t
    exact ih t

theorem flatMap_map_perm {γ : Type*} (rows : List α) (columns : List β) (cell : α → β → γ) :
    (rows.flatMap fun i => columns.map fun j => cell i j).Perm
      (columns.flatMap fun j => rows.map fun i => cell i j) := by
  rw [← Multiset.coe_eq_coe]
  have hswap := Multiset.bind_map_comm (rows : Multiset α) (columns : Multiset β) (f := cell)
  simpa using hswap

/-- The loop over the first indices of a vector is the one over its first elements. -/
theorem foldlM_range (a : List α) (n : ℕ) (hn : n ≤ a.length) (s : σ) :
    (List.range n).foldlM (fun s k => (a[k]?).bind (f s)) s = (a.take n).foldlM f s := by
  induction n with
  | zero => rfl
  | succ n ih =>
    have hin : n < a.length := hn
    rw [List.range_succ, List.foldlM_append, ih (Nat.le_of_lt hin),
      List.take_succ_eq_append_getElem hin, List.foldlM_append]
    simp [hin]

theorem foldlM_passes_succ (pass : σ → Option σ) (n : ℕ) (s : σ) :
    (List.range (n + 1)).foldlM (fun s _ => pass s) s =
      ((List.range n).foldlM (fun s _ => pass s) s).bind pass := by
  rw [List.range_succ, List.foldlM_append]
  simp

/-- Where no step fails, the loop is a plain one. -/
theorem foldlM_some (g : σ → α → σ) (l : List α) (s : σ) :
    l.foldlM (fun s x => some (g s x)) s = some (l.foldl g s) := by
  induction l generalizing s with
  | nil => rfl
  | cons x l ih => exact ih (g s x)

/-- The numbers below a product, row by row. -/
theorem range_mul (m n : ℕ) :
    (List.range m).flatMap (fun i => (List.range n).map fun j => i * n + j) = List.range (m * n) := by
  induction m with
  | zero => simp
  | succ m ih =>
    rw [List.range_succ, List.flatMap_append, ih, Nat.succ_mul, List.range_add]
    simp

end CppCodes.Library
