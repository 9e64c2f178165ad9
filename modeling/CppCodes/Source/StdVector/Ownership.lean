import CppCodes.Source.StdVector.Objects

/-!
# Ownership of the buffers

Every vector owns one buffer of exactly `cap_` slots, made by `new T[..]`, and no two
vectors share one. An operation on one vector therefore only has to say what its own buffer holds
(`Inv.update`); the elements of all others follow.
-/

set_option autoImplicit false

namespace CppCodes.Source.StdVector

open Library Library.Code

variable {T : Type}

/-- The buffer has exactly `cap_` slots and `size_ <= cap_`. -/
structure Sound (heap : BlockHeap T) (f : MyVec) : Prop where
  buffer : ∃ slots, Memory.slotsAt heap f.data = some slots ∧ slots.length = f.cap
  size_le : f.size ≤ f.cap
  cap_lt : f.cap < 2 ^ 63

structure Inv (m : Memory T) : Prop where
  sound : ∀ {v f}, m.vecs v = some f → Sound m.heap f
  owned : ∀ {v w f g a}, m.vecs v = some f → m.vecs w = some g → f.data = some a →
    g.data = some a → v = w
  array : ∀ {v f}, m.vecs v = some f → f.form = .array

/-- The elements of a vector: its first `size_` slots. -/
def elements (heap : BlockHeap T) (f : MyVec) : List T :=
  ((Memory.slotsAt heap f.data).getD []).take f.size

/-- The lists of a program, by name of the vector. -/
abbrev ListStore (T : Type) : Type := Nat → Option (List T)

def Memory.contents (m : Memory T) : ListStore T := fun v =>
  (m.vecs v).map (elements m.heap)

theorem elements_eq {heap : BlockHeap T} {f : MyVec} {slots : List T}
    (h : Memory.slotsAt heap f.data = some slots) : elements heap f = slots.take f.size := by
  rw [elements, h, Option.getD_some]

theorem contents_eq {m : Memory T} {v : Nat} {f : MyVec} (h : m.vecs v = some f) :
    m.contents v = some (elements m.heap f) := by
  rw [Memory.contents, h, Option.map_some]

theorem Sound.elements_length {heap : BlockHeap T} {f : MyVec} (h : Sound heap f) :
    (elements heap f).length = f.size := by
  obtain ⟨slots, hslots, hlen⟩ := h.buffer
  rw [elements_eq hslots, List.length_take, hlen, Nat.min_eq_left h.size_le]

theorem Inv.sizes_eq {m : Memory T} (inv : Inv m) :
    m.sizes = fun v => (m.contents v).map List.length := by
  funext v
  cases hv : m.vecs v with
  | none => simp [Memory.sizes, Memory.contents, hv]
  | some f => simp [Memory.sizes, Memory.contents, hv, (inv.sound hv).elements_length]

theorem start_inv : Inv (Memory.start : Memory T) := by
  constructor
  · intro v f h
    cases h
  · intro v w f g a h
    cases h
  · intro v f h
    cases h

theorem sound_null (heap : BlockHeap T) : Sound heap ⟨none, 0, 0, .array⟩ :=
  ⟨⟨[], rfl, rfl⟩, Nat.le_refl _, by decide⟩

@[simp] theorem elements_null (heap : BlockHeap T) : elements heap ⟨none, 0, 0, .array⟩ = [] := rfl

/-- The buffers in use hold in `heap` what they hold in `m`, but for the one of `v`. -/
def Frame (m : Memory T) (heap : BlockHeap T) (v : Nat) : Prop :=
  ∀ w g a, w ≠ v → m.vecs w = some g → g.data = some a → heap.block a = m.heap.block a

/-- No vector but `v` has the buffer of `f`. -/
def Free (m : Memory T) (v : Nat) (f : MyVec) : Prop :=
  ∀ w g a, w ≠ v → m.vecs w = some g → g.data = some a → f.data ≠ some a

theorem slotsAt_congr {heap heap' : BlockHeap T} {p : Option Nat}
    (h : ∀ a, p = some a → heap'.block a = heap.block a) :
    Memory.slotsAt heap' p = Memory.slotsAt heap p := by
  cases p with
  | none => rfl
  | some a => exact h a rfl

theorem Sound.congr {heap heap' : BlockHeap T} {f : MyVec} (sound : Sound heap f)
    (h : ∀ a, f.data = some a → heap'.block a = heap.block a) : Sound heap' f := by
  obtain ⟨slots, hslots, hlen⟩ := sound.buffer
  exact ⟨⟨slots, (slotsAt_congr h).trans hslots, hlen⟩, sound.size_le, sound.cap_lt⟩

theorem elements_congr {heap heap' : BlockHeap T} {f : MyVec}
    (h : ∀ a, f.data = some a → heap'.block a = heap.block a) :
    elements heap' f = elements heap f := by
  rw [elements, elements, slotsAt_congr h]

/-- After an update a name is the updated one or keeps what it named. -/
theorem update_eq_some {vecs : Nat → Option MyVec} {v w : Nat} {f : Option MyVec} {g : MyVec}
    (h : Function.update vecs v f w = some g) :
    (w = v ∧ f = some g) ∨ (w ≠ v ∧ vecs w = some g) := by
  by_cases hwv : w = v
  · subst hwv
    exact Or.inl ⟨rfl, by rwa [Function.update_self] at h⟩
  · exact Or.inr ⟨hwv, by rwa [Function.update_of_ne hwv] at h⟩

/-- One vector changes: its new buffer is sound and no other vector's, and the other
buffers are as they were. -/
theorem Inv.update {m : Memory T} (inv : Inv m) (calls : Nat) {v : Nat} {heap : BlockHeap T}
    {f : Option MyVec} (frame : Frame m heap v) (sound : ∀ g, f = some g → Sound heap g)
    (free : ∀ g, f = some g → Free m v g) (array : ∀ g, f = some g → g.form = .array) :
    Inv ⟨heap, Function.update m.vecs v f, calls⟩ ∧
      Memory.contents ⟨heap, Function.update m.vecs v f, calls⟩ =
        Function.update m.contents v (f.map (elements heap)) := by
  refine ⟨⟨?_, ?_, ?_⟩, ?_⟩
  · intro w g hw
    rcases update_eq_some hw with ⟨-, hf⟩ | ⟨hwv, hw⟩
    · exact sound g hf
    · exact (inv.sound hw).congr fun a ha => frame w g a hwv hw ha
  · intro w u g k a hw hu hg hk
    rcases update_eq_some hw with ⟨hwv, hf⟩ | ⟨hwv, hw⟩ <;>
      rcases update_eq_some hu with ⟨huv, hf'⟩ | ⟨huv, hu⟩
    · rw [hwv, huv]
    · exact absurd hg (free g hf u k a huv hu hk)
    · exact absurd hk (free k hf' w g a hwv hw hg)
    · exact inv.owned hw hu hg hk
  · intro w g hw
    rcases update_eq_some hw with ⟨-, hf⟩ | ⟨-, hw⟩
    · exact array g hf
    · exact inv.array hw
  · funext w
    by_cases hwv : w = v
    · subst hwv
      simp [Memory.contents]
    · rw [Function.update_of_ne hwv]
      simp only [Memory.contents, Function.update_of_ne hwv]
      cases hw : m.vecs w with
      | none => rfl
      | some g =>
        rw [Option.map_some, Option.map_some,
          elements_congr fun a ha => frame w g a hwv hw ha]

/-- Nothing changes for any vector. -/
theorem Inv.keep {m : Memory T} (inv : Inv m) {heap : BlockHeap T} (calls : Nat)
    (frame : ∀ w g a, m.vecs w = some g → g.data = some a → heap.block a = m.heap.block a) :
    Inv ⟨heap, m.vecs, calls⟩ ∧ Memory.contents ⟨heap, m.vecs, calls⟩ = m.contents := by
  refine ⟨⟨?_, inv.owned, inv.array⟩, ?_⟩
  · intro w g hw
    exact (inv.sound hw).congr fun a ha => frame w g a hw ha
  · funext w
    simp only [Memory.contents]
    cases hw : m.vecs w with
    | none => rfl
    | some g =>
      rw [Option.map_some, Option.map_some, elements_congr fun a ha => frame w g a hw ha]

section Primitives

variable {E : Element T} {m : Memory T} {R : Memory T → Prop}

@[simp] theorem ensures_members {v : Nat} {Q : MyVec → Memory T → Prop} :
    Ensures (members v) Q R m ↔ ∃ f, m.vecs v = some f ∧ Q f m := by
  rw [members, ensures_bind]
  simp

@[simp] theorem ensures_setMembers {v : Nat} {f : Option MyVec} {Q : Unit → Memory T → Prop} :
    Ensures (setMembers v f) Q R m ↔ Q () { m with vecs := Function.update m.vecs v f } :=
  Iff.rfl

@[simp] theorem ensures_setHeap {heap : Option (BlockHeap T)} {Q : Unit → Memory T → Prop} :
    Ensures (setHeap heap) Q R m ↔ ∃ h, heap = some h ∧ Q () { m with heap := h } := by
  rw [setHeap, ensures_bind]
  simp

theorem ensures_mayThrow {Q : Unit → Memory T → Prop}
    (hdone : Q () { m with calls := m.calls + 1 })
    (hthrew : E.throwsAt m.calls = true → R { m with calls := m.calls + 1 }) :
    Ensures (mayThrow E) Q R m := by
  unfold Ensures mayThrow
  by_cases h : E.throwsAt m.calls = true
  · rw [if_pos h]
    exact hthrew h
  · rw [if_neg h]
    exact hdone

end Primitives

end CppCodes.Source.StdVector
