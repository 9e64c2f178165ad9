import CppCodes.Library.BlockHeap
import Mathlib.Data.List.Nodup
import Mathlib.Data.List.Perm.Basic

/-!
# Owners with a pointer each

An owner has a pointer, null or the address of one value on the heap. Owners come and go;
`owner o` is `none` where there is none under the name. `freed` lists the addresses that
have been freed, as often as they were.

`Exclusive` says that ownership is exclusive and complete: a pointer that is not null is
that of a value, no two owners have the same, and every value has an owner. The rules tell
what an owner may do without harm, and what the others see of it, which is nothing.
-/

set_option autoImplicit false

namespace CppCodes.Library

variable {α : Type}

structure Exclusive (heap : BlockHeap α) (owner : Nat → Option (Option Nat)) (freed : List Nat) :
    Prop where
  alive : ∀ {o p}, owner o = some (some p) → ∃ x, heap.block p = some [x]
  unshared : ∀ {o o' p}, owner o = some (some p) → owner o' = some (some p) → o = o'
  owned : ∀ {p slots}, heap.block p = some slots → ∃ o, owner o = some (some p)
  freed_nodup : freed.Nodup
  mem_freed : ∀ {p}, p ∈ freed ↔ p < heap.next ∧ heap.block p = none

/-- There is no owner, or its pointer is null. -/
def NoAddress (v : Option (Option Nat)) : Prop := ∀ p, v ≠ some (some p)

@[simp] theorem noAddress_none : NoAddress none := fun _ h => by cases h

@[simp] theorem noAddress_null : NoAddress (some none) := fun _ h => by cases h

theorem NoAddress.map_bind {v : Option (Option Nat)} (hv : NoAddress v) (f : Nat → Option α) :
    (v.map fun base => base.bind f) = v.map fun _ => none := by
  cases v with
  | none => rfl
  | some base =>
    cases base with
    | none => rfl
    | some p => exact absurd rfl (hv p)

/-- What the owners have: nothing behind a null pointer. -/
def ownedValues (heap : BlockHeap α) (owner : Nat → Option (Option Nat)) :
    Nat → Option (Option α) :=
  fun o => (owner o).map fun base => base.bind fun p => heap.load p 0

namespace Exclusive

variable {heap heap' : BlockHeap α} {owner : Nat → Option (Option Nat)} {freed : List Nat}
  {o p : Nat} {x : α}

theorem start : Exclusive (.empty : BlockHeap α) (fun _ => none) [] where
  alive h := by cases h
  unshared h := by cases h
  owned h := by cases h
  freed_nodup := List.nodup_nil
  mem_freed := by simp [BlockHeap.empty]

theorem lt_next (h : Exclusive heap owner freed) (ho : owner o = some (some p)) : p < heap.next := by
  obtain ⟨x, hx⟩ := h.alive ho
  exact BlockHeap.lt_next hx

/-- Every address is freed once, when its owner has let go of it. -/
theorem count_freed (h : Exclusive heap owner freed) (hp : p < heap.next) :
    (∃ o, owner o = some (some p)) ∧ freed.count p = 0 ∨
      (∀ o, owner o ≠ some (some p)) ∧ freed.count p = 1 := by
  cases hblock : heap.block p with
  | some slots =>
    left
    refine ⟨h.owned hblock, List.count_eq_zero.mpr fun hin => ?_⟩
    rw [(h.mem_freed.mp hin).2] at hblock
    cases hblock
  | none =>
    right
    constructor
    · intro o ho
      obtain ⟨x, hx⟩ := h.alive ho
      rw [hblock] at hx
      cases hx
    · exact List.count_eq_one_of_mem h.freed_nodup (h.mem_freed.mpr ⟨hp, hblock⟩)

/-- Owners other than `o` have what they had, if their values are where they were. -/
theorem values_update {v : Option (Option Nat)} (h : Exclusive heap owner freed)
    (frame : ∀ p, owner o ≠ some (some p) → p < heap.next → heap'.block p = heap.block p) :
    ownedValues heap' (Function.update owner o v) =
      Function.update (ownedValues heap owner) o
        (v.map fun base => base.bind fun p => heap'.load p 0) := by
  funext o'
  by_cases ho : o' = o
  · subst ho
    simp [ownedValues]
  · rw [ownedValues, Function.update_of_ne ho, Function.update_of_ne ho, ownedValues]
    cases hv : owner o' with
    | none => rfl
    | some base =>
      cases base with
      | none => rfl
      | some p =>
        have hother : owner o ≠ some (some p) := fun hsame => ho (h.unshared hv hsame)
        simp [BlockHeap.load, frame p hother (h.lt_next hv)]

theorem update_eq {v w : Option (Option Nat)} {o' : Nat} (h : Function.update owner o v o' = w) :
    (o' = o ∧ v = w) ∨ (o' ≠ o ∧ owner o' = w) := by
  by_cases ho : o' = o
  · subst ho
    exact Or.inl ⟨rfl, by rwa [Function.update_self] at h⟩
  · exact Or.inr ⟨ho, by rwa [Function.update_of_ne ho] at h⟩

/-- A pointer set to no address is not the one that is found. -/
theorem address_of_update {v : Option (Option Nat)} {o' : Nat} (hv : NoAddress v)
    (h : Function.update owner o v o' = some (some p)) : o' ≠ o ∧ owner o' = some (some p) := by
  rcases update_eq h with ⟨-, hp⟩ | hother
  · exact absurd hp (hv p)
  · exact hother

/-- An owner without a value comes or goes. -/
theorem set_empty {v : Option (Option Nat)} (h : Exclusive heap owner freed)
    (ho : NoAddress (owner o)) (hv : NoAddress v) :
    Exclusive heap (Function.update owner o v) freed where
  alive hu := h.alive (address_of_update hv hu).2
  unshared hu hw := h.unshared (address_of_update hv hu).2 (address_of_update hv hw).2
  owned hp := by
    obtain ⟨o', ho'⟩ := h.owned hp
    have hne : o' ≠ o := by
      rintro rfl
      exact ho _ ho'
    exact ⟨o', by rwa [Function.update_of_ne hne]⟩
  freed_nodup := h.freed_nodup
  mem_freed := h.mem_freed

/-- A new value for an owner that has none. -/
theorem adopt (h : Exclusive heap owner freed) (ho : NoAddress (owner o)) :
    Exclusive (heap.alloc [x]) (Function.update owner o (some (some heap.next))) freed where
  alive {o' q} hu := by
    rcases update_eq hu with ⟨-, hv⟩ | ⟨-, hu⟩
    · cases hv
      exact ⟨x, BlockHeap.block_alloc_self⟩
    · obtain ⟨y, hy⟩ := h.alive hu
      exact ⟨y, (BlockHeap.block_alloc_of_lt (BlockHeap.lt_next hy)).trans hy⟩
  unshared {o' o'' q} hu hw := by
    rcases update_eq hu with ⟨ho', hv⟩ | ⟨-, hu⟩
    · rcases update_eq hw with ⟨ho'', -⟩ | ⟨-, hw⟩
      · rw [ho', ho'']
      · cases hv
        exact absurd (h.lt_next hw) (Nat.lt_irrefl _)
    · rcases update_eq hw with ⟨-, hv⟩ | ⟨-, hw⟩
      · cases hv
        exact absurd (h.lt_next hu) (Nat.lt_irrefl _)
      · exact h.unshared hu hw
  owned {q slots} hq := by
    by_cases hnew : q = heap.next
    · exact ⟨o, by rw [hnew, Function.update_self]⟩
    · rw [BlockHeap.block_alloc_of_ne hnew] at hq
      obtain ⟨o', ho'⟩ := h.owned hq
      have hne : o' ≠ o := by
        rintro rfl
        exact ho _ ho'
      exact ⟨o', by rwa [Function.update_of_ne hne]⟩
  freed_nodup := h.freed_nodup
  mem_freed {q} := by
    rw [h.mem_freed, BlockHeap.alloc_next]
    by_cases hnew : q = heap.next
    · subst hnew
      simp
    · rw [BlockHeap.block_alloc_of_ne hnew]
      have hlt : q < heap.next ↔ q < heap.next + 1 := by omega
      rw [hlt]

/-- An owner frees its value and keeps no pointer to it. -/
theorem release {v : Option (Option Nat)} (h : Exclusive heap owner freed)
    (ho : owner o = some (some p)) (hv : NoAddress v) :
    Exclusive (heap.remove p) (Function.update owner o v) (p :: freed) where
  alive {o' q} hu := by
    obtain ⟨hne, hu⟩ := address_of_update hv hu
    have hq : q ≠ p := by
      rintro rfl
      exact hne (h.unshared hu ho)
    rw [BlockHeap.block_remove_of_ne hq]
    exact h.alive hu
  unshared hu hw := h.unshared (address_of_update hv hu).2 (address_of_update hv hw).2
  owned {q slots} hq := by
    have hqp : q ≠ p := by
      rintro rfl
      rw [BlockHeap.block_remove_self] at hq
      cases hq
    rw [BlockHeap.block_remove_of_ne hqp] at hq
    obtain ⟨o', ho'⟩ := h.owned hq
    have hne : o' ≠ o := by
      rintro rfl
      rw [ho] at ho'
      cases ho'
      exact hqp rfl
    exact ⟨o', by rwa [Function.update_of_ne hne]⟩
  freed_nodup := by
    obtain ⟨x, hx⟩ := h.alive ho
    refine List.nodup_cons.mpr ⟨fun hin => ?_, h.freed_nodup⟩
    rw [(h.mem_freed.mp hin).2] at hx
    cases hx
  mem_freed {q} := by
    rw [List.mem_cons, h.mem_freed, BlockHeap.remove_next]
    by_cases hq : q = p
    · subst hq
      simp [h.lt_next ho]
    · rw [BlockHeap.block_remove_of_ne hq]
      simp [hq]

/-- The value of an owner is changed in place. -/
theorem write (h : Exclusive heap owner freed) (ho : owner o = some (some p)) :
    Exclusive (heap.write p [x]) owner freed where
  alive {o' q} hu := by
    by_cases hq : q = p
    · subst hq
      obtain ⟨y, hy⟩ := h.alive ho
      exact ⟨x, BlockHeap.block_write_self hy⟩
    · rw [BlockHeap.block_write_of_ne hq]
      exact h.alive hu
  unshared := h.unshared
  owned {q slots} hq := by
    by_cases hqp : q = p
    · exact ⟨o, by rw [ho, hqp]⟩
    · rw [BlockHeap.block_write_of_ne hqp] at hq
      exact h.owned hq
  freed_nodup := h.freed_nodup
  mem_freed {q} := by
    rw [h.mem_freed, BlockHeap.write_next]
    by_cases hq : q = p
    · subst hq
      obtain ⟨y, hy⟩ := h.alive ho
      simp [hy, BlockHeap.block_write_self hy]
    · rw [BlockHeap.block_write_of_ne hq]

section Values

theorem values_eq (ho : owner o = some (some p)) (hp : heap.block p = some [x]) :
    ownedValues heap owner o = some (some x) := by
  simp [ownedValues, ho, BlockHeap.load_eq hp]

theorem values_set_empty {v : Option (Option Nat)} (h : Exclusive heap owner freed)
    (hv : NoAddress v) :
    ownedValues heap (Function.update owner o v) =
      Function.update (ownedValues heap owner) o (v.map fun _ => none) := by
  rw [h.values_update fun _ _ _ => rfl, hv.map_bind]

theorem values_adopt (h : Exclusive heap owner freed) :
    ownedValues (heap.alloc [x]) (Function.update owner o (some (some heap.next))) =
      Function.update (ownedValues heap owner) o (some (some x)) := by
  rw [h.values_update fun p _ hp => BlockHeap.block_alloc_of_lt hp]
  simp [BlockHeap.load]

theorem values_release {v : Option (Option Nat)} (h : Exclusive heap owner freed)
    (ho : owner o = some (some p)) (hv : NoAddress v) :
    ownedValues (heap.remove p) (Function.update owner o v) =
      Function.update (ownedValues heap owner) o (v.map fun _ => none) := by
  rw [h.values_update fun q hq _ => BlockHeap.block_remove_of_ne fun hqp => hq (by rw [ho, hqp]),
    hv.map_bind]

theorem values_write (h : Exclusive heap owner freed) (ho : owner o = some (some p)) :
    ownedValues (heap.write p [x]) owner =
      Function.update (ownedValues heap owner) o (some (some x)) := by
  obtain ⟨y, hy⟩ := h.alive ho
  have hframe : ∀ q, owner o ≠ some (some q) → q < heap.next →
      (heap.write p [x]).block q = heap.block q :=
    fun q hq _ => BlockHeap.block_write_of_ne fun hqp => hq (by rw [ho, hqp])
  have hupdate := h.values_update (v := owner o) hframe
  rw [Function.update_eq_self] at hupdate
  rw [hupdate, ho]
  simp [BlockHeap.load, BlockHeap.block_write_self hy]

end Values

end Exclusive

end CppCodes.Library
