import CppCodes.Library.HeapOrder
import CppCodes.Source.Treap.TreapMap
import Mathlib.Order.Nat

/-!
# The priorities of the treap

Source: treap/treap.hpp:119-192. An insertion may leave one priority out of order, at
the root of the subtree it returns, and the rotation one level up puts it right;
merging keeps both subtrees below any bound they had.
-/

set_option autoImplicit false

namespace CppCodes.Source.Treap

open CppCodes.Library

variable {K V : Type}

/-- The priority as a number. -/
def Slot.priority (x : Slot K V) : Nat := x.2.2.toNat

namespace Node

def toTree : Node K V → BinaryTree (Slot K V)
  | .nil => .nil
  | .node l k v p r => .node (k, v, p) l.toTree r.toTree

theorem toTree_injective : Function.Injective (toTree (K := K) (V := V)) := by
  intro t
  induction t with
  | nil =>
    intro u h
    cases u with
    | nil => rfl
    | node l k v p r => cases h
  | node l k v p r ihl ihr =>
    intro u h
    cases u with
    | nil => cases h
    | node l' k' v' p' r' =>
      injection h with hroot hl hr
      cases hroot
      rw [ihl hl, ihr hr]

theorem slots_eq_inorder (t : Node K V) : t.slots = HeapOrder.inorder t.toTree := by
  induction t with
  | nil => rfl
  | node l k v p r ihl ihr => rw [slots, ihl, ihr, toTree, HeapOrder.inorder]

def count (t : Node K V) : Nat := t.toTree.numNodes

theorem count_eq (t : Node K V) : t.count = t.entries.length := by
  rw [entries_eq_slots, List.length_map, slots_eq_inorder, HeapOrder.inorder_length, count]

/-- Every key in a left subtree is less than its node's key, every key in a right
subtree greater. -/
def Ordered (comp : K → K → Bool) : Node K V → Prop
  | .nil => True
  | .node l k _ _ r => (∀ e ∈ l.entries, comp e.1 k = true) ∧
      (∀ e ∈ r.entries, comp k e.1 = true) ∧ Ordered comp l ∧ Ordered comp r

theorem ordered_of_sorted {comp : K → K → Bool} {t : Node K V}
    (h : KeyedList.Sorted comp t.entries) : t.Ordered comp := by
  induction t with
  | nil => trivial
  | node l k v p r ihl ihr =>
    obtain ⟨hl, hr, hbefore, hafter⟩ := KeyedList.sorted_middle h
    exact ⟨hbefore, hafter, ihl hl, ihr hr⟩

/-- No child has a larger priority than its parent. -/
def HeapOrdered (t : Node K V) : Prop := HeapOrder.Heap Slot.priority t.toTree

/-- The root has at most this priority. -/
def Below (t : Node K V) (q : Nat) : Prop := HeapOrder.Below Slot.priority t.toTree q

/-- The children of the root have at most this priority. -/
def ChildrenBelow (t : Node K V) (q : Nat) : Prop :=
  HeapOrder.ChildrenBelow Slot.priority t.toTree q

theorem Below.mono {t : Node K V} {p q : Nat} (h : t.Below p) (hpq : p ≤ q) : t.Below q :=
  HeapOrder.Below.mono h hpq

/-- A child that does not outrank its parent is below it. -/
theorem below_of_not_outranks {t : Node K V} {q : UInt32} (h : t.outranks q = false) :
    t.Below q.toNat := by
  cases t with
  | nil => trivial
  | node l k v p r =>
    have hle : ¬ p > q := of_decide_eq_false h
    rw [gt_iff_lt, UInt32.lt_iff_toNat_lt] at hle
    exact not_lt.mp hle

section Insert

variable {l r : Node K V} {k : K} {v : V} {q : UInt32}

/-- The left child after an insertion, with the rotation that follows. -/
theorem heap_rotateRight (heapl : l.HeapOrdered) (children : l.ChildrenBelow q.toNat)
    (heapr : r.HeapOrdered) (below : r.Below q.toNat) :
    let t := if l.outranks q then (node l k v q r).rotateRight else node l k v q r
    t.HeapOrdered ∧ ∀ bound, q.toNat ≤ bound → t.ChildrenBelow bound := by
  intro t
  by_cases hout : l.outranks q = true
  · have ht : t = (node l k v q r).rotateRight := if_pos hout
    rw [ht]
    cases l with
    | nil => cases hout
    | node a kx vx px b =>
      have hpx : q.toNat < px.toNat := UInt32.lt_iff_toNat_lt.mp (of_decide_eq_true hout)
      obtain ⟨haPx, -, heapa, heapb⟩ := heapl
      obtain ⟨haq, hbq⟩ := children
      refine ⟨⟨haPx, le_of_lt hpx, heapa, hbq, below, heapb, heapr⟩, ?_⟩
      intro bound hbound
      exact ⟨Below.mono haq hbound, hbound⟩
  · have hout' := Bool.eq_false_of_not_eq_true hout
    have ht : t = node l k v q r := if_neg hout
    rw [ht]
    have hl := below_of_not_outranks hout'
    exact ⟨⟨hl, below, heapl, heapr⟩, fun bound hbound => ⟨hl.mono hbound, below.mono hbound⟩⟩

theorem heap_rotateLeft (heapl : l.HeapOrdered) (below : l.Below q.toNat) (heapr : r.HeapOrdered)
    (children : r.ChildrenBelow q.toNat) :
    let t := if r.outranks q then (node l k v q r).rotateLeft else node l k v q r
    t.HeapOrdered ∧ ∀ bound, q.toNat ≤ bound → t.ChildrenBelow bound := by
  intro t
  by_cases hout : r.outranks q = true
  · have ht : t = (node l k v q r).rotateLeft := if_pos hout
    rw [ht]
    cases r with
    | nil => cases hout
    | node b ky vy py c =>
      have hpy : q.toNat < py.toNat := UInt32.lt_iff_toNat_lt.mp (of_decide_eq_true hout)
      obtain ⟨-, hcPy, heapb, heapc⟩ := heapr
      obtain ⟨hbq, hcq⟩ := children
      refine ⟨⟨le_of_lt hpy, hcPy, ⟨below, hbq, heapl, heapb⟩, heapc⟩, ?_⟩
      intro bound hbound
      exact ⟨hbound, Below.mono hcq hbound⟩
  · have hout' := Bool.eq_false_of_not_eq_true hout
    have ht : t = node l k v q r := if_neg hout
    rw [ht]
    have hr := below_of_not_outranks hout'
    exact ⟨⟨below, hr, heapl, heapr⟩, fun bound hbound => ⟨below.mono hbound, hr.mono hbound⟩⟩

/-- After an insertion only the root may exceed a bound that the subtree had. -/
theorem insertImpl_heap (comp : K → K → Bool) (assignOnMatch : Bool) (key : K) (value : V)
    (p : UInt32) {t : Node K V} (heap : t.HeapOrdered) :
    (t.insertImpl comp assignOnMatch key value p).1.HeapOrdered ∧
      ∀ bound, t.Below bound →
        (t.insertImpl comp assignOnMatch key value p).1.ChildrenBelow bound := by
  induction t with
  | nil => exact ⟨⟨trivial, trivial, trivial, trivial⟩, fun _ _ => ⟨trivial, trivial⟩⟩
  | node l k v q r ihl ihr =>
    obtain ⟨hl, hr, heapl, heapr⟩ := heap
    unfold insertImpl
    by_cases hbefore : comp key k = true
    · rw [if_pos hbefore]
      obtain ⟨heapl', children⟩ := ihl heapl
      exact heap_rotateRight heapl' (children q.toNat hl) heapr hr
    · rw [if_neg hbefore]
      by_cases hafter : comp k key = true
      · rw [if_pos hafter]
        obtain ⟨heapr', children⟩ := ihr heapr
        exact heap_rotateLeft heapl hl heapr' (children q.toNat hr)
      · rw [if_neg hafter]
        exact ⟨⟨hl, hr, heapl, heapr⟩,
          fun bound hbound => ⟨Below.mono hl hbound, Below.mono hr hbound⟩⟩

end Insert

/-- Merging two heaps gives a heap below every bound of both, ties included. -/
theorem merge_heap {a b : Node K V} (heapa : a.HeapOrdered) (heapb : b.HeapOrdered) :
    (merge a b).HeapOrdered ∧ ∀ bound, a.Below bound → b.Below bound → (merge a b).Below bound := by
  induction a generalizing b with
  | nil => exact ⟨heapb, fun _ _ hb => hb⟩
  | node la ka va pa ra _ ihra =>
    induction b with
    | nil => exact ⟨heapa, fun _ ha _ => ha⟩
    | node lb kb vb pb rb ihlb _ =>
      rw [merge_node]
      obtain ⟨hla, hra, heapla, heapra⟩ := heapa
      obtain ⟨hlb, hrb, heaplb, heaprb⟩ := heapb
      by_cases hpri : pa > pb
      · rw [if_pos hpri]
        obtain ⟨heapm, hm⟩ := ihra heapra (b := node lb kb vb pb rb) ⟨hlb, hrb, heaplb, heaprb⟩
        exact ⟨⟨hla, hm pa.toNat hra (le_of_lt (UInt32.lt_iff_toNat_lt.mp hpri)), heapla, heapm⟩, fun _ ha _ => ha⟩
      · rw [if_neg hpri]
        rw [gt_iff_lt, UInt32.lt_iff_toNat_lt] at hpri
        obtain ⟨heapm, hm⟩ := ihlb heaplb
        exact ⟨⟨hm pb.toNat (not_lt.mp hpri) hlb, hrb, heapm, heaprb⟩, fun _ _ hb => hb⟩

theorem eraseImpl_heap (comp : K → K → Bool) (key : K) {t : Node K V} (heap : t.HeapOrdered) :
    (t.eraseImpl comp key).1.HeapOrdered ∧
      ∀ bound, t.Below bound → (t.eraseImpl comp key).1.Below bound := by
  induction t with
  | nil => exact ⟨trivial, fun _ _ => trivial⟩
  | node l k v q r ihl ihr =>
    obtain ⟨hl, hr, heapl, heapr⟩ := heap
    unfold eraseImpl
    by_cases hbefore : comp key k = true
    · rw [if_pos hbefore]
      obtain ⟨heapl', hl'⟩ := ihl heapl
      exact ⟨⟨hl' q.toNat hl, hr, heapl', heapr⟩, fun _ hbound => hbound⟩
    · rw [if_neg hbefore]
      by_cases hafter : comp k key = true
      · rw [if_pos hafter]
        obtain ⟨heapr', hr'⟩ := ihr heapr
        exact ⟨⟨hl, hr' q.toNat hr, heapl, heapr'⟩, fun _ hbound => hbound⟩
      · rw [if_neg hafter]
        obtain ⟨heapm, hm⟩ := merge_heap heapl heapr
        exact ⟨heapm, fun _ hbound => hm _ (Below.mono hl hbound) (Below.mono hr hbound)⟩

end Node

end CppCodes.Source.Treap
