import Mathlib.Tactic.Common

/-!
# Stateful code that may throw or go wrong

A piece of code changes a state and ends in one of three ways: with a value, with
an exception, or in undefined behaviour. An exception keeps the state it was
thrown in, so what a caller finds after a failed call can be stated; undefined
behaviour keeps nothing.

`Ensures` is the weakest precondition of the code for a condition on normal ends
and one on exceptional ends. It is false on undefined behaviour, so code that
ensures anything has none.
-/

set_option autoImplicit false

namespace CppCodes.Library

inductive Outcome (σ α : Type) where
  | done (value : α) (state : σ)
  | threw (state : σ)
  | fault

def Code (σ α : Type) : Type := σ → Outcome σ α

namespace Code

variable {σ α β : Type}

instance : Monad (Code σ) where
  pure a := fun s => .done a s
  bind c f := fun s =>
    match c s with
    | .done a t => f a t
    | .threw t => .threw t
    | .fault => .fault

/-- Undefined behaviour. -/
def fail : Code σ α := fun _ => .fault

def raise : Code σ α := fun s => .threw s

def read (f : σ → α) : Code σ α := fun s => .done (f s) s

def modify (f : σ → σ) : Code σ Unit := fun s => .done () (f s)

/-- A value that has to be there. -/
def require : Option α → Code σ α
  | some a => pure a
  | none => fail

/-- `try { body } catch (...) { cleanup; throw; }` -/
def rethrowing (body : Code σ α) (cleanup : Code σ Unit) : Code σ α := fun s =>
  match body s with
  | .done a t => .done a t
  | .threw t => (cleanup >>= fun _ => raise) t
  | .fault => .fault

/-- `for (i = first; i < first + count; ++i) body(i)` -/
def forRange (body : Nat → Code σ Unit) : Nat → Nat → Code σ Unit
  | _, 0 => pure ()
  | i, count + 1 => do
      body i
      forRange body (i + 1) count

/-- From `s` the code ends in `Q` when it returns and in `R` when it throws, and it
does nothing undefined. -/
def Ensures (c : Code σ α) (Q : α → σ → Prop) (R : σ → Prop) (s : σ) : Prop :=
  match c s with
  | .done a t => Q a t
  | .threw t => R t
  | .fault => False

section Rules

variable {Q : α → σ → Prop} {R : σ → Prop} {s : σ}

@[simp] theorem ensures_pure {a : α} : Ensures (pure a : Code σ α) Q R s ↔ Q a s := Iff.rfl

@[simp] theorem ensures_fail : ¬ Ensures (fail : Code σ α) Q R s := id

@[simp] theorem ensures_raise : Ensures (raise : Code σ α) Q R s ↔ R s := Iff.rfl

@[simp] theorem ensures_read {f : σ → α} : Ensures (read f) Q R s ↔ Q (f s) s := Iff.rfl

@[simp] theorem ensures_modify {f : σ → σ} {P : Unit → σ → Prop} :
    Ensures (modify f) P R s ↔ P () (f s) := Iff.rfl

@[simp] theorem ensures_require {a : Option α} :
    Ensures (require a) Q R s ↔ ∃ x, a = some x ∧ Q x s := by
  cases a with
  | none => simp [require]
  | some x => simp [require]

theorem ensures_require_some {x : α} : Ensures (require (some x)) Q R s ↔ Q x s := Iff.rfl

theorem require_some {x : α} : (require (some x) : Code σ α) s = .done x s := rfl

theorem bind_eq {c : Code σ α} {f : α → Code σ β} :
    (c >>= f) s = match c s with
      | .done a t => f a t
      | .threw t => .threw t
      | .fault => .fault := rfl

theorem bind_of_done {c : Code σ α} {f : α → Code σ β} {a : α} {t : σ} (h : c s = .done a t) :
    (c >>= f) s = f a t := by
  rw [bind_eq, h]

theorem bind_of_threw {c : Code σ α} {f : α → Code σ β} {t : σ} (h : c s = .threw t) :
    (c >>= f) s = .threw t := by
  rw [bind_eq, h]

theorem bind_of_fault {c : Code σ α} {f : α → Code σ β} (h : c s = .fault) :
    (c >>= f) s = .fault := by
  rw [bind_eq, h]

theorem ensures_bind {c : Code σ α} {f : α → Code σ β} {P : β → σ → Prop} :
    Ensures (c >>= f) P R s ↔ Ensures c (fun a t => Ensures (f a) P R t) R s := by
  unfold Ensures
  rw [bind_eq]
  cases c s <;> rfl

theorem Ensures.mono {c : Code σ α} {P : α → σ → Prop} {S : σ → Prop} (h : Ensures c P S s)
    (hdone : ∀ a t, P a t → Q a t) (hthrew : ∀ t, S t → R t) : Ensures c Q R s := by
  unfold Ensures at h ⊢
  cases hc : c s with
  | done a t => rw [hc] at h; exact hdone a t h
  | threw t => rw [hc] at h; exact hthrew t h
  | fault => rw [hc] at h; exact h.elim

/-- Run `c` first: what it ensures on return is what the rest starts from. -/
theorem Ensures.bind {c : Code σ α} {f : α → Code σ β} {P : α → σ → Prop} {S : σ → Prop}
    {O : β → σ → Prop} (h : Ensures c P S s) (hdone : ∀ a t, P a t → Ensures (f a) O R t)
    (hthrew : ∀ t, S t → R t) : Ensures (c >>= f) O R s :=
  ensures_bind.mpr (h.mono hdone hthrew)

/-- Where an exception of the rest counts as one of the whole. -/
theorem Ensures.andThen {c : Code σ α} {f : α → Code σ β} {P : α → σ → Prop} {O : β → σ → Prop}
    (h : Ensures c P R s) (hdone : ∀ a t, P a t → Ensures (f a) O R t) :
    Ensures (c >>= f) O R s :=
  h.bind hdone fun _ hR => hR

theorem Ensures.weaken {c : Code σ α} {P : α → σ → Prop} (h : Ensures c P R s)
    (hdone : ∀ a t, P a t → Q a t) : Ensures c Q R s :=
  h.mono hdone fun _ hR => hR

theorem Ensures.rethrowing {c : Code σ α} {cleanup : Code σ Unit} {S : σ → Prop}
    (h : Ensures c Q S s)
    (hthrew : ∀ t, S t → Ensures cleanup (fun _ u => R u) R t) :
    Ensures (c.rethrowing cleanup) Q R s := by
  unfold Ensures at h ⊢
  unfold Code.rethrowing
  cases hc : c s with
  | done a t => rw [hc] at h; exact h
  | fault => rw [hc] at h; exact h.elim
  | threw t =>
    rw [hc] at h
    have hraise : Ensures (cleanup >>= fun _ => (raise : Code σ α)) Q R t :=
      ensures_bind.mpr ((hthrew t h).mono (fun _ _ hR => hR) fun _ hR => hR)
    exact hraise

theorem Ensures.forRange_from {body : Nat → Code σ Unit} {I : Nat → σ → Prop} {first count : Nat}
    (start : I first s)
    (iteration : ∀ i t, first ≤ i → i < first + count → I i t →
      Ensures (body i) (fun _ u => I (i + 1) u) R t) :
    Ensures (forRange body first count) (fun _ t => I (first + count) t) R s := by
  induction count generalizing first s with
  | zero => exact start
  | succ count ih =>
    apply (iteration first s (Nat.le_refl _) (by omega) start).andThen
    intro _ t ht
    have hrest := ih ht fun i u hi hlt => iteration i u (by omega) (by omega)
    rwa [Nat.add_right_comm, Nat.add_assoc] at hrest

/-- The loop rule: `I i` holds before the iteration for `i`. -/
theorem Ensures.forRange {body : Nat → Code σ Unit} {I : Nat → σ → Prop} {count : Nat}
    (start : I 0 s)
    (iteration : ∀ i t, i < count → I i t → Ensures (body i) (fun _ u => I (i + 1) u) R t) :
    Ensures (forRange body 0 count) (fun _ t => I count t) R s := by
  have hrun : Ensures (Code.forRange body 0 count) (fun _ t => I (0 + count) t) R s :=
    Ensures.forRange_from start fun i t _ hi => iteration i t (by omega)
  rwa [Nat.zero_add] at hrun

/-- Code that ensures something either returns or throws. -/
theorem Ensures.cases {c : Code σ α} (h : Ensures c Q R s) :
    (∃ a t, c s = .done a t ∧ Q a t) ∨ ∃ t, c s = .threw t ∧ R t := by
  unfold Ensures at h
  cases hc : c s with
  | done a t => rw [hc] at h; exact Or.inl ⟨a, t, rfl, h⟩
  | threw t => rw [hc] at h; exact Or.inr ⟨t, rfl, h⟩
  | fault => rw [hc] at h; exact h.elim

end Rules

end Code

end CppCodes.Library
