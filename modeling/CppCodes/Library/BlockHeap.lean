import Mathlib.Logic.Function.Basic
import Mathlib.Data.List.Basic
import Mathlib.Tactic.Common

/-!
# A heap of blocks

A block is an array of slots under an address. A freed address is not handed out
again, so an access through a pointer kept too long is seen as an access to no
block. Loads, stores and frees are partial: they fail on an address with no block
and on an index outside it.
-/

set_option autoImplicit false

namespace CppCodes.Library

structure BlockHeap (α : Type) where
  block : Nat → Option (List α)
  next : Nat
  fresh : ∀ p, next ≤ p → block p = none

namespace BlockHeap

variable {α : Type} {h : BlockHeap α} {p q i : Nat} {slots : List α}

@[ext] theorem ext_of {g h : BlockHeap α} (hblock : g.block = h.block) (hnext : g.next = h.next) :
    g = h := by
  cases g
  cases h
  cases hblock
  cases hnext
  rfl

def empty : BlockHeap α := ⟨fun _ => none, 0, fun _ _ => rfl⟩

theorem lt_next (hp : h.block p = some slots) : p < h.next := by
  by_contra hle
  rw [h.fresh p (Nat.not_lt.mp hle)] at hp
  cases hp

/-- A new block at address `h.next`. -/
def alloc (h : BlockHeap α) (slots : List α) : BlockHeap α where
  block := Function.update h.block h.next (some slots)
  next := h.next + 1
  fresh p hp := by
    rw [Function.update_of_ne (Nat.ne_of_gt hp), h.fresh p (Nat.le_of_succ_le hp)]

/-- The block at `p`, if there is one, with other contents. -/
def write (h : BlockHeap α) (p : Nat) (slots : List α) : BlockHeap α where
  block := Function.update h.block p ((h.block p).map fun _ => slots)
  next := h.next
  fresh q hq := by
    by_cases hpq : q = p
    · rw [hpq, Function.update_self, h.fresh p (hpq ▸ hq), Option.map_none]
    · rw [Function.update_of_ne hpq, h.fresh q hq]

def remove (h : BlockHeap α) (p : Nat) : BlockHeap α where
  block := Function.update h.block p none
  next := h.next
  fresh q hq := by
    by_cases hpq : q = p
    · rw [hpq, Function.update_self]
    · rw [Function.update_of_ne hpq, h.fresh q hq]

def load (h : BlockHeap α) (p i : Nat) : Option α := (h.block p).bind fun slots => slots[i]?

def store (h : BlockHeap α) (p i : Nat) (x : α) : Option (BlockHeap α) :=
  match h.block p with
  | none => none
  | some slots => if i < slots.length then some (h.write p (slots.set i x)) else none

def free (h : BlockHeap α) (p : Nat) : Option (BlockHeap α) :=
  (h.block p).map fun _ => h.remove p

@[simp] theorem alloc_next : (h.alloc slots).next = h.next + 1 := rfl

@[simp] theorem write_next : (h.write p slots).next = h.next := rfl

@[simp] theorem remove_next : (h.remove p).next = h.next := rfl

@[simp] theorem block_alloc_self : (h.alloc slots).block h.next = some slots :=
  Function.update_self ..

theorem block_alloc_of_ne (hp : p ≠ h.next) : (h.alloc slots).block p = h.block p :=
  Function.update_of_ne hp ..

theorem block_alloc_of_lt (hp : p < h.next) : (h.alloc slots).block p = h.block p :=
  block_alloc_of_ne (Nat.ne_of_lt hp)

theorem block_write_self {old : List α} (hp : h.block p = some old) :
    (h.write p slots).block p = some slots := by
  simp [write, hp]

theorem block_write_of_ne (hq : q ≠ p) : (h.write p slots).block q = h.block q :=
  Function.update_of_ne hq ..

@[simp] theorem block_remove_self : (h.remove p).block p = none := Function.update_self ..

theorem block_remove_of_ne (hq : q ≠ p) : (h.remove p).block q = h.block q :=
  Function.update_of_ne hq ..

@[simp] theorem write_write {slots' : List α} :
    (h.write p slots).write p slots' = h.write p slots' := by
  apply ext_of
  · simp [write, Function.comp_def]
  · rfl

theorem load_eq (hp : h.block p = some slots) : h.load p i = slots[i]? := by
  rw [load, hp, Option.bind_some]

theorem store_eq {x : α} (hp : h.block p = some slots) (hi : i < slots.length) :
    h.store p i x = some (h.write p (slots.set i x)) := by
  rw [store, hp]
  exact if_pos hi

theorem store_some {g : BlockHeap α} {x : α} (hg : h.store p i x = some g) :
    ∃ slots, h.block p = some slots ∧ g = h.write p (slots.set i x) := by
  unfold store at hg
  cases hblock : h.block p with
  | none =>
    rw [hblock] at hg
    cases hg
  | some slots =>
    rw [hblock] at hg
    dsimp only at hg
    split at hg
    · cases hg
      exact ⟨slots, rfl, rfl⟩
    · cases hg

theorem free_eq (hp : h.block p = some slots) : h.free p = some (h.remove p) := by
  rw [free, hp, Option.map_some]

end BlockHeap

end CppCodes.Library
