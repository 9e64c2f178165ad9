import Mathlib.Data.Tree.Basic
import Mathlib.Order.Lattice

/-!
# Heap-ordered binary trees

A tree whose values have ranks is heap-ordered when no child has a larger rank
than its parent. The left-to-right order of the values then leaves no choice in the
shape, as long as no two ranks are equal: the root is where the largest rank is, and
so on downwards (`Heap.unique`).
-/

set_option autoImplicit false

namespace CppCodes.Library.HeapOrder

variable {α P : Type*}

/-- The values from left to right. -/
def inorder : BinaryTree α → List α
  | .nil => []
  | .node a l r => inorder l ++ a :: inorder r

theorem inorder_length (t : BinaryTree α) : (inorder t).length = t.numNodes := by
  induction t with
  | nil => rfl
  | node a l r ihl ihr =>
    rw [inorder, List.length_append, List.length_cons, ihl, ihr, BinaryTree.numNodes]
    omega

variable [LinearOrder P] (rank : α → P)

/-- The root, if there is one, has at most this rank. -/
def Below : BinaryTree α → P → Prop
  | .nil, _ => True
  | .node a _ _, p => rank a ≤ p

/-- The children of the root have at most this rank. -/
def ChildrenBelow : BinaryTree α → P → Prop
  | .nil, _ => True
  | .node _ l r, p => Below rank l p ∧ Below rank r p

/-- No child has a larger rank than its parent. -/
def Heap : BinaryTree α → Prop
  | .nil => True
  | .node a l r => Below rank l (rank a) ∧ Below rank r (rank a) ∧ Heap l ∧ Heap r

variable {rank}

theorem Below.mono {t : BinaryTree α} {p q : P} (h : Below rank t p) (hpq : p ≤ q) :
    Below rank t q := by
  cases t with
  | nil => trivial
  | node a l r => exact le_trans h hpq

/-- In a heap the root bounds every value. -/
theorem Heap.le_of_mem {t : BinaryTree α} (heap : Heap rank t) {p : P} (h : Below rank t p) {x : α}
    (hx : x ∈ inorder t) : rank x ≤ p := by
  induction t generalizing p with
  | nil => cases hx
  | node a l r ihl ihr =>
    obtain ⟨hl, hr, heapl, heapr⟩ := heap
    rw [inorder, List.mem_append, List.mem_cons] at hx
    rcases hx with hleft | rfl | hright
    · exact le_trans (ihl heapl hl hleft) h
    · exact h
    · exact le_trans (ihr heapr hr hright) h

/-- Two ways to split a list of distinct ranks at an element that bounds the others
are the same way. -/
theorem split_unique {l l' r r' : List α} {a a' : α} (h : l ++ a :: r = l' ++ a' :: r')
    (distinct : ((l ++ a :: r).map rank).Nodup) (top : ∀ x ∈ l ++ a :: r, rank x ≤ rank a)
    (top' : ∀ x ∈ l' ++ a' :: r', rank x ≤ rank a') : l = l' ∧ a = a' ∧ r = r' := by
  have hrank : rank a = rank a' := by
    apply le_antisymm
    · exact top' a (by rw [← h]; simp)
    · exact top a' (by rw [h]; simp)
  induction l generalizing l' with
  | nil =>
    cases l' with
    | nil =>
      cases h
      exact ⟨rfl, rfl, rfl⟩
    | cons b l' =>
      -- the other maximum would be a second occurrence of this rank
      have hmem : rank a ∈ r.map rank := by
        obtain ⟨-, htail⟩ := List.cons.inj h
        rw [htail, hrank]
        simp
      exact absurd hmem (List.nodup_cons.mp distinct).1
  | cons b l ih =>
    cases l' with
    | nil =>
      obtain ⟨rfl, -⟩ := List.cons.inj h
      have hmem : rank b ∈ (l ++ a :: r).map rank := by
        rw [← hrank]
        simp
      exact absurd hmem (List.nodup_cons.mp distinct).1
    | cons b' l' =>
      obtain ⟨rfl, htail⟩ := List.cons.inj h
      obtain ⟨rfl, rfl, rfl⟩ := ih htail (List.nodup_cons.mp distinct).2
        (fun x hx => top x (List.mem_cons_of_mem _ hx))
        (fun x hx => top' x (List.mem_cons_of_mem _ hx))
      exact ⟨rfl, rfl, rfl⟩

/-- The values from left to right and their ranks determine a heap-ordered tree. -/
theorem Heap.unique {t t' : BinaryTree α} (heap : Heap rank t) (heap' : Heap rank t')
    (same : inorder t = inorder t') (distinct : ((inorder t).map rank).Nodup) : t = t' := by
  induction t generalizing t' with
  | nil =>
    cases t' with
    | nil => rfl
    | node a' l' r' => simp [inorder] at same
  | node a l r ihl ihr =>
    cases t' with
    | nil => simp [inorder] at same
    | node a' l' r' =>
      have htop : ∀ x ∈ inorder l ++ a :: inorder r, rank x ≤ rank a := fun x hx =>
        heap.le_of_mem (show Below rank (.node a l r) (rank a) from le_refl _) hx
      have htop' : ∀ x ∈ inorder l' ++ a' :: inorder r', rank x ≤ rank a' := fun x hx =>
        heap'.le_of_mem (show Below rank (.node a' l' r') (rank a') from le_refl _) hx
      obtain ⟨hl, rfl, hr⟩ := split_unique same distinct htop htop'
      rw [inorder, List.map_append, List.map_cons] at distinct
      have hsides := List.nodup_append.mp distinct
      rw [ihl heap.2.2.1 heap'.2.2.1 hl hsides.1,
        ihr heap.2.2.2 heap'.2.2.2 hr (List.nodup_cons.mp hsides.2.1).2]

end CppCodes.Library.HeapOrder
