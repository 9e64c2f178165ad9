import CppCodes.Library.Fallible

/-!
# What an exception leaves behind

`Atomic R` says of a piece of code that the state an exception leaves is related by `R`
to the state before. Code is atomic if everything that can throw comes before everything
that changes what `R` sees: first a part that changes nothing (`Quiet`), last one that
does not throw (`NoThrow`).
-/

set_option autoImplicit false

namespace CppCodes.Library.Code

variable {σ α β : Type}

def Atomic (R : σ → σ → Prop) (c : Code σ α) : Prop := ∀ s t, c s = .threw t → R s t

/-- Neither a return nor an exception changes what `R` sees. -/
structure Quiet (R : σ → σ → Prop) (c : Code σ α) : Prop where
  threw : ∀ s t, c s = .threw t → R s t
  done : ∀ s a t, c s = .done a t → R s t

def NoThrow (c : Code σ α) : Prop := ∀ s t, c s ≠ .threw t

variable {Q R : σ → σ → Prop} {c : Code σ α} {f : α → Code σ β}

theorem bind_threw {s t : σ} (h : (c >>= f) s = .threw t) :
    c s = .threw t ∨ ∃ a u, c s = .done a u ∧ f a u = .threw t := by
  rw [bind_eq] at h
  cases hc : c s with
  | done a u => rw [hc] at h; exact Or.inr ⟨a, u, rfl, h⟩
  | threw u => rw [hc] at h; cases h; exact Or.inl rfl
  | fault => rw [hc] at h; cases h

theorem bind_done {s t : σ} {b : β} (h : (c >>= f) s = .done b t) :
    ∃ a u, c s = .done a u ∧ f a u = .done b t := by
  rw [bind_eq] at h
  cases hc : c s with
  | done a u => rw [hc] at h; exact ⟨a, u, rfl, h⟩
  | threw u => rw [hc] at h; cases h
  | fault => rw [hc] at h; cases h

theorem read_done {g : σ → α} {s t : σ} {a : α} (h : read g s = .done a t) : a = g s ∧ t = s := by
  cases h
  exact ⟨rfl, rfl⟩

theorem require_done {o : Option α} {s t : σ} {a : α} (h : (require o : Code σ α) s = .done a t) :
    o = some a ∧ t = s := by
  cases o with
  | none => cases h
  | some b =>
    cases h
    exact ⟨rfl, rfl⟩

theorem modify_done {g : σ → σ} {s t : σ} (h : modify g s = .done () t) : t = g s := by
  cases h
  rfl

theorem NoThrow.atomic (h : NoThrow c) : Atomic R c := fun s t ht => absurd ht (h s t)

theorem Quiet.atomic (weaken : ∀ {s t}, Q s t → R s t) (h : Quiet Q c) : Atomic R c :=
  fun s t ht => weaken (h.threw s t ht)

/-- What comes first changes nothing. -/
theorem Atomic.after_quiet (weaken : ∀ {s t}, Q s t → R s t)
    (trans : ∀ {s u t}, Q s u → R u t → R s t) (hc : Quiet Q c) (hf : ∀ a, Atomic R (f a)) :
    Atomic R (c >>= f) := by
  intro s t ht
  rcases bind_threw ht with hthrew | ⟨a, u, hdone, hthrew⟩
  · exact weaken (hc.threw s t hthrew)
  · exact trans (hc.done s a u hdone) (hf a u t hthrew)

/-- What comes last does not throw. -/
theorem Atomic.before_noThrow (hc : Atomic R c) (hf : ∀ a, NoThrow (f a)) : Atomic R (c >>= f) := by
  intro s t ht
  rcases bind_threw ht with hthrew | ⟨a, u, -, hthrew⟩
  · exact hc s t hthrew
  · exact absurd hthrew (hf a u t)

theorem Quiet.bind (trans : ∀ {s u t}, R s u → R u t → R s t) (hc : Quiet R c)
    (hf : ∀ a, Quiet R (f a)) : Quiet R (c >>= f) where
  threw s t ht := by
    rcases bind_threw ht with hthrew | ⟨a, u, hdone, hthrew⟩
    · exact hc.threw s t hthrew
    · exact trans (hc.done s a u hdone) ((hf a).threw u t hthrew)
  done s b t ht := by
    obtain ⟨a, u, hdone, hrest⟩ := bind_done ht
    exact trans (hc.done s a u hdone) ((hf a).done u b t hrest)

theorem NoThrow.bind (hc : NoThrow c) (hf : ∀ a, NoThrow (f a)) : NoThrow (c >>= f) := by
  intro s t ht
  rcases bind_threw ht with hthrew | ⟨a, u, -, hthrew⟩
  · exact hc s t hthrew
  · exact hf a u t hthrew

theorem NoThrow.ite {p : Prop} [Decidable p] {d : Code σ α} (hc : NoThrow c) (hd : NoThrow d) :
    NoThrow (if p then c else d) := by
  split
  · exact hc
  · exact hd

theorem Atomic.ite {p : Prop} [Decidable p] {d : Code σ α} (hc : Atomic R c) (hd : Atomic R d) :
    Atomic R (if p then c else d) := by
  split
  · exact hc
  · exact hd

theorem noThrow_pure (a : α) : NoThrow (pure a : Code σ α) := by
  intro s t h
  cases h

theorem noThrow_fail : NoThrow (fail : Code σ α) := by
  intro s t h
  cases h

theorem noThrow_read (g : σ → α) : NoThrow (read g) := by
  intro s t h
  cases h

theorem noThrow_modify (g : σ → σ) : NoThrow (modify g) := by
  intro s t h
  cases h

theorem noThrow_require (a : Option α) : NoThrow (require a : Code σ α) := by
  cases a with
  | none => exact noThrow_fail
  | some a => exact noThrow_pure a

theorem quiet_pure (refl : ∀ s, R s s) (a : α) : Quiet R (pure a : Code σ α) where
  threw s t ht := absurd ht (noThrow_pure a s t)
  done s _ _ ht := by
    cases ht
    exact refl s

theorem quiet_fail : Quiet R (fail : Code σ α) where
  threw s t ht := absurd ht (noThrow_fail s t)
  done _ _ _ ht := by cases ht

theorem quiet_read (refl : ∀ s, R s s) (g : σ → α) : Quiet R (read g) where
  threw s t ht := absurd ht (noThrow_read g s t)
  done s _ _ ht := by
    cases ht
    exact refl s

theorem quiet_modify {g : σ → σ} (h : ∀ s, R s (g s)) : Quiet R (modify g) where
  threw s t ht := absurd ht (noThrow_modify g s t)
  done s _ _ ht := by
    cases ht
    exact h s

theorem quiet_require (refl : ∀ s, R s s) (a : Option α) : Quiet R (require a : Code σ α) := by
  cases a with
  | none => exact quiet_fail
  | some a => exact quiet_pure refl a

/-- A return changes the state by `R`. -/
def Returns (R : σ → σ → Prop) (c : Code σ α) : Prop := ∀ s a t, c s = .done a t → R s t

theorem Quiet.returns (h : Quiet R c) : Returns R c := h.done

theorem Returns.bind {S : σ → σ → Prop} (comp : ∀ {s u t}, Q s u → R u t → S s t)
    (hc : Returns Q c) (hf : ∀ a, Returns R (f a)) : Returns S (c >>= f) := by
  intro s b t ht
  obtain ⟨a, u, hdone, hrest⟩ := bind_done ht
  exact comp (hc s a u hdone) (hf a u b t hrest)

theorem Returns.ite {p : Prop} [Decidable p] {d : Code σ α} (hc : Returns R c)
    (hd : Returns R d) : Returns R (if p then c else d) := by
  split
  · exact hc
  · exact hd

/-- What every return does, and what this one ensures. -/
theorem Ensures.with_returns {P : α → σ → Prop} {T : σ → Prop} {s : σ} (h : Ensures c P T s)
    (hc : Returns R c) : Ensures c (fun a t => P a t ∧ R s t) T s := by
  unfold Ensures at h ⊢
  cases hs : c s with
  | done a t =>
    rw [hs] at h
    exact ⟨h, hc s a t hs⟩
  | threw t =>
    rw [hs] at h
    exact h
  | fault =>
    rw [hs] at h
    exact h

theorem Ensures.and {P P' : α → σ → Prop} {T : σ → Prop} {s : σ} (h : Ensures c P T s)
    (h' : Ensures c P' T s) : Ensures c (fun a t => P a t ∧ P' a t) T s := by
  unfold Ensures at h h' ⊢
  cases hs : c s with
  | done a t =>
    rw [hs] at h h'
    exact ⟨h, h'⟩
  | threw t =>
    rw [hs] at h
    exact h
  | fault =>
    rw [hs] at h
    exact h

end CppCodes.Library.Code
