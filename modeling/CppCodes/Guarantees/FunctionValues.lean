import CppCodes.Library.History
import CppCodes.Source.StdFunction.Function

/-!
# `Function` objects as values

To its user a `Function` object is a value: nothing, or a functor of its own. A program
keeps it so as long as it copies from other objects only, and from none that is empty, and
no copy throws that is to replace a callable, which is deleted by then.
-/

set_option autoImplicit false

namespace CppCodes.Guarantees.FunctionValues

open CppCodes.Library CppCodes.Library.Code
open CppCodes.Source.StdFunction

variable {F A R : Type}

/-- The live objects, by name, with the functor of each. -/
abbrev Values (F : Type) : Type := Nat → Option (Option F)

section Specification

variable (C : Client F A R)

def after (v : Values F) : Op F A → Values F
  | .construct o => Function.update v o (some none)
  | .constructFrom o functor => Function.update v o (some (some functor))
  | .copyConstruct o f => Function.update v o (v f)
  | .assign o f => Function.update v o (v f)
  | .call o arg0 =>
      Function.update v o ((v o).map fun value => value.map fun f => (C.invoke f arg0).2)
  | .destroy o => Function.update v o none

/-- A call gives what the functor gives, the other operations nothing. -/
def Answer (v : Values F) : Op F A → Option R → Prop
  | .call o arg0, r => ∃ f, v o = some (some f) ∧ r = some (C.invoke f arg0).1
  | _, r => r = none

def record (v : Values F) : Event F A R → Values F
  | .done op _ => after C v op
  | .threw _ => v
  | .fault => v

def valuesAfter (trace : List (Event F A R)) : Values F := trace.foldl (record C) fun _ => none

def Answered (trace : List (Event F A R)) : Event F A R → Prop
  | .done op r => Answer C (valuesAfter C trace) op r
  | .threw _ => True
  | .fault => True

/-- `m` is a memory with these values in it. -/
structure Represents (m : Memory F) (v : Values F) : Prop where
  exclusive : Exclusive m.heap m.objects m.deleted
  values_eq : ownedValues m.heap m.objects = v

/-- What a program may rely on at any time. -/
structure Sound (m : Memory F) (trace : List (Event F A R)) : Prop where
  defined : Event.fault ∉ trace
  represents : Represents m (valuesAfter C trace)
  deleted_once : ∀ p < m.heap.next,
    (∃ o, m.objects o = some (some p)) ∧ m.deleted.count p = 0 ∨
      (∀ o, m.objects o ≠ some (some p)) ∧ m.deleted.count p = 1
  answered : Each (Answered C) trace

/-- The same at any time of the program. -/
def SafeValues (ops : List (Op F A)) : Prop :=
  Always (fun before => ∀ m trace, (machine C).Run {} before m trace → Sound C m trace) ops

/-- The operation copies from an object that is not empty, and if it replaces a callable,
from another object and without an exception. -/
def Safe (m : Memory F) : Op F A → Prop
  | .copyConstruct _ f => m.objects f ≠ some none
  | .assign o f => o ≠ f ∧ m.objects f ≠ some none ∧
      (m.objects o = some none ∨ C.throwsAt m.created = false)
  | _ => True

end Specification

instance (C : Client F A R) (m : Memory F) : (op : Op F A) → Decidable (Safe C m op)
  | .construct _ => isTrue trivial
  | .constructFrom _ _ => isTrue trivial
  | .copyConstruct _ f => inferInstanceAs (Decidable (m.objects f ≠ some none))
  | .assign o f => inferInstanceAs (Decidable (o ≠ f ∧ m.objects f ≠ some none ∧
      (m.objects o = some none ∨ C.throwsAt m.created = false)))
  | .call _ _ => isTrue trivial
  | .destroy _ => isTrue trivial

/-! ## The members on represented values -/

section Primitives

variable {m : Memory F} {o p : Nat} {x : F} {Q' : Memory F → Prop}

theorem ensures_base {b : Option Nat} {Q : Option Nat → Memory F → Prop}
    (ho : m.objects o = some b) : Ensures (base o) Q Q' m ↔ Q b m := by
  rw [base, ensures_bind, ensures_read, ho, ensures_require_some]

theorem ensures_functorAt {Q : F → Memory F → Prop} (hp : m.heap.block p = some [x]) :
    Ensures (functorAt p) Q Q' m ↔ Q x m := by
  have hload : m.heap.load p 0 = some x := BlockHeap.load_eq hp
  rw [functorAt, ensures_bind, ensures_read, hload, ensures_require_some]

theorem ensures_setFunctorAt {f : F} {Q : Unit → Memory F → Prop}
    (hp : m.heap.block p = some [x]) :
    Ensures (setFunctorAt p f) Q Q' m ↔ Q () { m with heap := m.heap.write p [f] } := by
  have hstore : m.heap.store p 0 f = some (m.heap.write p [f]) :=
    BlockHeap.store_eq hp (Nat.zero_lt_one)
  rw [setFunctorAt, ensures_bind, ensures_read, ensures_bind, hstore, ensures_require_some,
    ensures_modify]

theorem ensures_deleteCallable {Q : Unit → Memory F → Prop} (hp : m.heap.block p = some [x]) :
    Ensures (deleteCallable (some p)) Q Q' m ↔
      Q () { m with heap := m.heap.remove p, deleted := p :: m.deleted } := by
  rw [deleteCallable, ensures_bind, ensures_read, ensures_bind, BlockHeap.free_eq hp,
    ensures_require_some, ensures_modify]

theorem ensures_newCallable {C : Client F A R} {f : F} {Q : Nat → Memory F → Prop}
    (hdone : C.throwsAt m.created = false →
      Q m.heap.next { m with heap := m.heap.alloc [f], created := m.created + 1 })
    (hthrew : C.throwsAt m.created = true → Q' { m with created := m.created + 1 }) :
    Ensures (newCallable C f) Q Q' m := by
  unfold Ensures newCallable
  cases h : C.throwsAt m.created with
  | true => exact hthrew h
  | false => exact hdone h

end Primitives

theorem exists_address {b : Option (Option Nat)} (hsome : b.isSome = true) (hne : b ≠ some none) :
    ∃ p, b = some (some p) := by
  match b, hsome, hne with
  | some none, _, hne => exact absurd rfl hne
  | some (some p), _, _ => exact ⟨p, rfl⟩

section Members

variable {C : Client F A R} {m : Memory F} {v : Values F} {o f p : Nat} {x : F}

theorem Represents.functor (h : Represents m v) (hf : m.objects f = some (some p)) :
    ∃ x, m.heap.block p = some [x] ∧ v f = some (some x) := by
  obtain ⟨x, hx⟩ := h.exclusive.alive hf
  exact ⟨x, hx, by rw [← h.values_eq, Exclusive.values_eq hf hx]⟩

theorem Represents.set_empty {b : Option (Option Nat)} (h : Represents m v)
    (ho : NoAddress (m.objects o)) (hb : NoAddress b) :
    Represents { m with objects := Function.update m.objects o b }
      (Function.update v o (b.map fun _ => none)) where
  exclusive := h.exclusive.set_empty ho hb
  values_eq := by rw [← h.values_eq, h.exclusive.values_set_empty hb]

theorem Represents.adopt (h : Represents m v) (ho : NoAddress (m.objects o)) (n : Nat) :
    Represents
      { m with heap := m.heap.alloc [x],
               objects := Function.update m.objects o (some (some m.heap.next)), created := n }
      (Function.update v o (some (some x))) where
  exclusive := h.exclusive.adopt ho
  values_eq := by rw [← h.values_eq, h.exclusive.values_adopt]

theorem Represents.release {b : Option (Option Nat)} (h : Represents m v)
    (ho : m.objects o = some (some p)) (hb : NoAddress b) :
    Represents
      { m with heap := m.heap.remove p, objects := Function.update m.objects o b,
               deleted := p :: m.deleted }
      (Function.update v o (b.map fun _ => none)) where
  exclusive := h.exclusive.release ho hb
  values_eq := by rw [← h.values_eq, h.exclusive.values_release ho hb]

theorem Represents.write (h : Represents m v) (ho : m.objects o = some (some p)) :
    Represents { m with heap := m.heap.write p [x] } (Function.update v o (some (some x))) where
  exclusive := h.exclusive.write ho
  values_eq := by rw [← h.values_eq, h.exclusive.values_write ho]

theorem ensures_construct (h : Represents m v) (ho : m.objects o = none) :
    Ensures (construct o) (fun _ t => Represents t (Function.update v o (some none)))
      (fun t => Represents t v) m := by
  exact h.set_empty (by simp [ho]) noAddress_null

theorem ensures_constructFrom (h : Represents m v) (ho : m.objects o = none) :
    Ensures (constructFrom C o x) (fun _ t => Represents t (Function.update v o (some (some x))))
      (fun t => Represents t v) m := by
  rw [constructFrom, ensures_bind]
  apply ensures_newCallable
  · exact fun _ => h.adopt (by simp [ho]) (m.created + 1)
  · exact fun _ => ⟨h.exclusive, h.values_eq⟩

/-- The functor at `p` is copied for `o`, whose own callable, if it had one, is gone. -/
theorem ensures_adopt_copy {b : Option (Option Nat)} (hb : NoAddress b)
    (h : Represents { m with objects := Function.update m.objects o b } v)
    (hp : m.heap.block p = some [x]) :
    Ensures (copy C p >>= fun q => setObject o (some (some q)))
      (fun _ t => Represents t (Function.update v o (some (some x))))
      (fun t => C.throwsAt m.created = true ∧ t = { m with created := m.created + 1 }) m := by
  rw [copy, ensures_bind, ensures_bind, ensures_functorAt hp]
  apply ensures_newCallable
  · intro _
    have hadopted := h.adopt (o := o) (x := x) (by simpa using hb) (m.created + 1)
    rw [Function.update_idem] at hadopted
    exact hadopted
  · exact fun hthrows => ⟨hthrows, rfl⟩

/-- An owner without a callable gets a copy, or nothing changes. -/
theorem ensures_copy_into (h : Represents m v) (ho : NoAddress (m.objects o))
    (hp : m.heap.block p = some [x]) :
    Ensures (copy C p >>= fun q => setObject o (some (some q)))
      (fun _ t => Represents t (Function.update v o (some (some x))))
      (fun t => Represents t v) m := by
  have hsame : Represents { m with objects := Function.update m.objects o (m.objects o) } v := by
    rw [Function.update_eq_self]
    exact h
  apply (ensures_adopt_copy ho hsame hp).mono
  · exact fun _ t ht => ht
  · rintro t ⟨-, rfl⟩
    exact ⟨h.exclusive, h.values_eq⟩

theorem ensures_copyConstruct (h : Represents m v) (ho : m.objects o = none)
    (hf : m.objects f = some (some p)) :
    Ensures (copyConstruct C o f) (fun _ t => Represents t (Function.update v o (v f)))
      (fun t => Represents t v) m := by
  obtain ⟨x, hx, hvalue⟩ := h.functor hf
  rw [copyConstruct, ensures_bind, ensures_base hf, ensures_bind, ensures_require_some, hvalue]
  exact ensures_copy_into h (by simp [ho]) hx

/-- The old callable is deleted first: the copied one has to be another, and from there on
nothing may throw. -/
theorem ensures_assign {old : Option Nat} (h : Represents m v) (ho : m.objects o = some old)
    (hf : m.objects f = some (some p)) (hne : o ≠ f)
    (hthrows : old = none ∨ C.throwsAt m.created = false) :
    Ensures (assign C o f) (fun _ t => Represents t (Function.update v o (v f)))
      (fun t => Represents t v) m := by
  obtain ⟨x, hx, hvalue⟩ := h.functor hf
  rw [assign, ensures_bind, ensures_base ho, ensures_bind, hvalue]
  cases old with
  | none =>
    rw [deleteCallable, ensures_pure, ensures_bind, ensures_base hf, ensures_bind,
      ensures_require_some]
    exact ensures_copy_into h (by simp [ho]) hx
  | some q =>
    obtain ⟨y, hy, -⟩ := h.functor ho
    have hpq : p ≠ q := by
      rintro rfl
      exact hne (h.exclusive.unshared ho hf)
    have hp : (m.heap.remove q).block p = some [x] := by rw [BlockHeap.block_remove_of_ne hpq, hx]
    have hbase : ({ m with heap := m.heap.remove q, deleted := q :: m.deleted } :
        Memory F).objects f = some (some p) := hf
    rw [ensures_deleteCallable hy, ensures_bind, ensures_base hbase, ensures_bind,
      ensures_require_some]
    apply (ensures_adopt_copy noAddress_null (h.release ho noAddress_null) hp).mono
    · intro _ t ht
      rwa [Function.update_idem] at ht
    · rintro t ⟨hthrew, -⟩
      rcases hthrows with hnull | hquiet
      · cases hnull
      · simp [hquiet] at hthrew

theorem ensures_call {arg0 : A} (h : Represents m v) (ho : m.objects o = some (some p)) :
    Ensures (call C o arg0)
      (fun r t => ∃ x, v o = some (some x) ∧ r = (C.invoke x arg0).1 ∧
        Represents t (Function.update v o (some (some (C.invoke x arg0).2))))
      (fun t => Represents t v) m := by
  obtain ⟨x, hx, hvalue⟩ := h.functor ho
  rw [call, ensures_bind, ensures_base ho, ensures_bind, ensures_require_some, ensures_bind,
    ensures_functorAt hx, ensures_bind, ensures_setFunctorAt hx, ensures_pure]
  exact ⟨x, hvalue, rfl, h.write ho⟩

theorem ensures_destroy {b : Option Nat} (h : Represents m v) (ho : m.objects o = some b) :
    Ensures (destroy o) (fun _ t => Represents t (Function.update v o none))
      (fun t => Represents t v) m := by
  rw [destroy, ensures_bind, ensures_base ho, ensures_bind]
  cases b with
  | none =>
    exact h.set_empty (by simp [ho]) noAddress_none
  | some p =>
    obtain ⟨x, hx, -⟩ := h.functor ho
    rw [ensures_deleteCallable hx]
    exact h.release ho noAddress_none

end Members

/-- Every operation that is safe in this sense has the effect it has on values, or throws
and has none. -/
theorem ensures_perform {C : Client F A R} {m : Memory F} {v : Values F} {op : Op F A}
    (h : Represents m v) (hen : enabled m op = true) (hsafe : Safe C m op) :
    Ensures (perform C op) (fun r t => Represents t (after C v op) ∧ Answer C v op r)
      (fun t => Represents t v) m := by
  cases op with
  | construct o =>
    have ho : m.objects o = none := by simpa [enabled] using hen
    rw [perform, ensures_bind]
    apply (ensures_construct h ho).weaken
    exact fun _ t ht => ⟨ht, rfl⟩
  | constructFrom o functor =>
    have ho : m.objects o = none := by simpa [enabled] using hen
    rw [perform, ensures_bind]
    apply (ensures_constructFrom h ho).weaken
    exact fun _ t ht => ⟨ht, rfl⟩
  | copyConstruct o f =>
    simp only [enabled, Bool.and_eq_true, Option.isNone_iff_eq_none] at hen
    obtain ⟨p, hf⟩ := exists_address hen.2 hsafe
    rw [perform, ensures_bind]
    apply (ensures_copyConstruct h hen.1 hf).weaken
    exact fun _ t ht => ⟨ht, rfl⟩
  | assign o f =>
    simp only [enabled, Bool.and_eq_true] at hen
    obtain ⟨hne, hsource, hthrows⟩ := hsafe
    obtain ⟨old, ho⟩ := Option.isSome_iff_exists.mp hen.1
    obtain ⟨p, hf⟩ := exists_address hen.2 hsource
    rw [perform, ensures_bind]
    apply (ensures_assign h ho hf hne (by simpa [ho] using hthrows)).weaken
    exact fun _ t ht => ⟨ht, rfl⟩
  | call o arg0 =>
    obtain ⟨p, ho⟩ := Option.isSome_iff_exists.mp hen
    rw [Option.join_eq_some_iff] at ho
    rw [perform, ensures_bind]
    apply (ensures_call h ho).weaken
    rintro r t ⟨x, hx, rfl, ht⟩
    have hafter : after C v (.call o arg0) =
        Function.update v o (some (some (C.invoke x arg0).2)) := by simp [after, hx]
    rw [ensures_pure, hafter]
    exact ⟨ht, x, hx, rfl⟩
  | destroy o =>
    obtain ⟨b, ho⟩ := Option.isSome_iff_exists.mp hen
    rw [perform, ensures_bind]
    apply (ensures_destroy h ho).weaken
    exact fun _ t ht => ⟨ht, rfl⟩

/-! ## What goes wrong otherwise -/

section Careless

variable {C : Client F A R} {m : Memory F} {v : Values F} {o f p : Nat} {x : F}

theorem base_eq {b : Option Nat} (ho : m.objects o = some b) : base o m = .done b m := by
  change require (m.objects o) m = .done b m
  rw [ho]
  rfl

theorem deleteCallable_eq (hp : m.heap.block p = some [x]) :
    deleteCallable (some p) m =
      .done () { m with heap := m.heap.remove p, deleted := p :: m.deleted } := by
  have hfree : (require (m.heap.free p) : Code (Memory F) (BlockHeap F)) m =
      .done (m.heap.remove p) m := by
    rw [BlockHeap.free_eq hp]
    rfl
  exact bind_of_done hfree

theorem copy_deleted (hp : m.heap.block p = none) : copy C p m = .fault := by
  have hload : m.heap.load p 0 = none := by rw [BlockHeap.load, hp, Option.bind_none]
  have hfunctor : functorAt p m = .fault := by
    change require (m.heap.load p 0) m = .fault
    rw [hload]
    rfl
  rw [copy, bind_of_fault hfunctor]

theorem copy_threw (hp : m.heap.block p = some [x]) (hthrows : C.throwsAt m.created = true) :
    copy C p m = .threw { m with created := m.created + 1 } := by
  have hload : m.heap.load p 0 = some x := BlockHeap.load_eq hp
  have hfunctor : functorAt p m = .done x m := by
    change require (m.heap.load p 0) m = .done x m
    rw [hload]
    rfl
  rw [copy, bind_of_done hfunctor, newCallable, if_pos hthrows]

theorem copyConstruct_from_empty (hf : m.objects f = some none) :
    copyConstruct C o f m = .fault := by
  rw [copyConstruct, bind_of_done (base_eq hf)]
  rfl

theorem assign_from_empty {old : Option Nat} (h : Represents m v) (ho : m.objects o = some old)
    (hf : m.objects f = some none) : assign C o f m = .fault := by
  rw [assign, bind_of_done (base_eq ho)]
  cases old with
  | none =>
    have hdelete : deleteCallable none m = .done () m := rfl
    rw [bind_of_done hdelete, bind_of_done (base_eq hf)]
    rfl
  | some q =>
    obtain ⟨y, hy, -⟩ := h.functor ho
    have hbase := base_eq (m := { m with heap := m.heap.remove q, deleted := q :: m.deleted }) hf
    rw [bind_of_done (deleteCallable_eq hy), bind_of_done hbase]
    rfl

/-- The callable that is to be copied is the one that has just been deleted. -/
theorem assign_to_itself (h : Represents m v) (ho : m.objects o = some (some p)) :
    assign C o o m = .fault := by
  obtain ⟨x, hx, -⟩ := h.functor ho
  have hcopy : copy C p { m with heap := m.heap.remove p, deleted := p :: m.deleted } = .fault :=
    copy_deleted BlockHeap.block_remove_self
  have hbase := base_eq (m := { m with heap := m.heap.remove p, deleted := p :: m.deleted }) ho
  rw [assign, bind_of_done (base_eq ho), bind_of_done (deleteCallable_eq hx), bind_of_done hbase,
    bind_of_done require_some, bind_of_fault hcopy]

/-- `base` is left pointing to what has been deleted. -/
theorem assign_threw {q : Nat} (h : Represents m v) (ho : m.objects o = some (some q))
    (hf : m.objects f = some (some p)) (hne : o ≠ f) (hthrows : C.throwsAt m.created = true) :
    ∃ t, assign C o f m = .threw t ∧ t.objects o = some (some q) ∧ t.heap.block q = none := by
  obtain ⟨y, hy, -⟩ := h.functor ho
  obtain ⟨x, hx, -⟩ := h.functor hf
  have hpq : p ≠ q := by
    rintro rfl
    exact hne (h.exclusive.unshared ho hf)
  have hp : (m.heap.remove q).block p = some [x] := by rw [BlockHeap.block_remove_of_ne hpq, hx]
  have hbase := base_eq (m := { m with heap := m.heap.remove q, deleted := q :: m.deleted }) hf
  have hcopy := copy_threw (m := { m with heap := m.heap.remove q, deleted := q :: m.deleted })
    hp hthrows
  have hthrew : assign C o f m = .threw
      { m with heap := m.heap.remove q, deleted := q :: m.deleted, created := m.created + 1 } := by
    rw [assign, bind_of_done (base_eq ho), bind_of_done (deleteCallable_eq hy), bind_of_done hbase,
      bind_of_done require_some, bind_of_threw hcopy]
  exact ⟨_, hthrew, ho, BlockHeap.block_remove_self⟩

theorem perform_careless {op : Op F A} (h : Represents m v) (hen : enabled m op = true)
    (hcareless : ¬ Safe C m op) :
    perform C op m = .fault ∨
      ∃ t, perform C op m = .threw t ∧ ¬ Exclusive t.heap t.objects t.deleted := by
  cases op with
  | copyConstruct o f =>
    have hf : m.objects f = some none := not_not.mp hcareless
    exact Or.inl (bind_of_fault (copyConstruct_from_empty hf))
  | assign o f =>
    simp only [enabled, Bool.and_eq_true] at hen
    obtain ⟨old, ho⟩ := Option.isSome_iff_exists.mp hen.1
    by_cases hempty : m.objects f = some none
    · exact Or.inl (bind_of_fault (assign_from_empty h ho hempty))
    · obtain ⟨p, hf⟩ := exists_address hen.2 hempty
      by_cases hsame : o = f
      · subst hsame
        exact Or.inl (bind_of_fault (assign_to_itself h hf))
      · have hthrows : ¬ (m.objects o = some none ∨ C.throwsAt m.created = false) :=
          fun hquiet => hcareless ⟨hsame, hempty, hquiet⟩
        rw [not_or, Bool.not_eq_false] at hthrows
        obtain ⟨q, ho⟩ := exists_address hen.1 hthrows.1
        obtain ⟨t, ht, hbase, hgone⟩ := assign_threw h ho hf hsame hthrows.2
        right
        refine ⟨t, bind_of_threw ht, fun hexclusive => ?_⟩
        obtain ⟨y, hy⟩ := hexclusive.alive hbase
        rw [hgone] at hy
        cases hy
  | construct o => exact absurd trivial hcareless
  | constructFrom o functor => exact absurd trivial hcareless
  | call o arg0 => exact absurd trivial hcareless
  | destroy o => exact absurd trivial hcareless

end Careless

/-! ## Programs -/

section Programs

variable {C : Client F A R} {m t : Memory F} {op : Op F A} {trace seen : List (Event F A R)}

theorem step_cases (hstep : (machine C).step m op = some (t, seen)) :
    enabled m op = true ∧
      ((∃ r, perform C op m = .done r t ∧ seen = [.done op r]) ∨
        (perform C op m = .threw t ∧ seen = [.threw op]) ∨
        (perform C op m = .fault ∧ seen = [.fault])) := by
  simp only [machine] at hstep
  split at hstep
  · rename_i hen
    refine ⟨hen, ?_⟩
    cases hperform : perform C op m with
    | done r u =>
      rw [hperform] at hstep
      cases hstep
      exact Or.inl ⟨r, rfl, rfl⟩
    | threw u =>
      rw [hperform] at hstep
      cases hstep
      exact Or.inr (Or.inl ⟨rfl, rfl⟩)
    | fault =>
      rw [hperform] at hstep
      cases hstep
      exact Or.inr (Or.inr ⟨rfl, rfl⟩)
  · cases hstep

@[simp] theorem valuesAfter_snoc {e : Event F A R} :
    valuesAfter C (trace ++ [e]) = record C (valuesAfter C trace) e := by
  simp [valuesAfter]

theorem Sound.of_represents (hdefined : Event.fault ∉ trace)
    (h : Represents m (valuesAfter C trace)) (hanswered : Each (Answered C) trace) :
    Sound C m trace where
  defined := hdefined
  represents := h
  deleted_once _ hp := h.exclusive.count_freed hp
  answered := hanswered

theorem sound_start : Sound C ({} : Memory F) [] :=
  .of_represents (by simp) ⟨Exclusive.start, rfl⟩ each_nil

theorem Sound.step (h : Sound C m trace) (hsafe : Safe C m op)
    (hstep : (machine C).step m op = some (t, seen)) : Sound C t (trace ++ seen) := by
  obtain ⟨hen, hends⟩ := step_cases hstep
  rcases (ensures_perform h.represents hen hsafe).cases with
    ⟨r, u, hdone, hrepresents, hanswer⟩ | ⟨u, hthrew, hrepresents⟩
  · rw [hdone] at hends
    obtain ⟨r', heq, rfl⟩ | ⟨heq, -⟩ | ⟨heq, -⟩ := hends
    · cases heq
      apply Sound.of_represents
      · simp [h.defined]
      · rwa [valuesAfter_snoc]
      · exact each_snoc_iff.mpr ⟨h.answered, hanswer⟩
    · cases heq
    · cases heq
  · rw [hthrew] at hends
    obtain ⟨r', heq, -⟩ | ⟨heq, rfl⟩ | ⟨heq, -⟩ := hends
    · cases heq
    · cases heq
      apply Sound.of_represents
      · simp [h.defined]
      · rwa [valuesAfter_snoc]
      · exact each_snoc_iff.mpr ⟨h.answered, trivial⟩
    · cases heq

theorem not_sound_of_careless (h : Sound C m trace) (hcareless : ¬ Safe C m op)
    (hstep : (machine C).step m op = some (t, seen)) : ¬ Sound C t (trace ++ seen) := by
  intro hsound
  obtain ⟨hen, hends⟩ := step_cases hstep
  rcases perform_careless h.represents hen hcareless with hfault | ⟨u, hthrew, hbroken⟩
  · rw [hfault] at hends
    obtain ⟨r, heq, -⟩ | ⟨heq, -⟩ | ⟨-, rfl⟩ := hends
    · cases heq
    · cases heq
    · exact hsound.defined (by simp)
  · rw [hthrew] at hends
    obtain ⟨r, heq, -⟩ | ⟨heq, -⟩ | ⟨heq, -⟩ := hends
    · cases heq
    · cases heq
      exact hbroken hsound.represents.exclusive
    · cases heq

theorem sound_of_safe {ops : List (Op F A)} (run : (machine C).Run {} ops m trace)
    (hsafe : (machine C).StepsMeet (Safe C) {} ops) : Sound C m trace :=
  run.invariant_of_steps (I := Sound C) sound_start (fun h hnow hstep => h.step hnow hstep) hsafe

theorem safe_values_iff {ops : List (Op F A)} (run : (machine C).Run {} ops m trace) :
    SafeValues C ops ↔ (machine C).StepsMeet (Safe C) {} ops := by
  constructor
  · apply run.induction (P := fun ops _ _ => SafeValues C ops → (machine C).StepsMeet (Safe C) {} ops)
    · exact fun _ => trivial
    · intro ops t trace op u seen hrun ih hstep hvalues
      obtain ⟨hbefore, hlast⟩ := always_snoc_iff.mp hvalues
      apply (Machine.stepsMeet_snoc_iff hrun).mpr ⟨ih hbefore, ?_⟩
      by_contra hcareless
      exact not_sound_of_careless (hbefore ops List.prefix_rfl t trace hrun) hcareless hstep
        (hlast u _ (hrun.append (Machine.Run.single hstep)))
  · rintro hsafe before ⟨later, rfl⟩ t seen hrun
    exact sound_of_safe hrun hsafe.of_append

end Programs

/-- Functors that add what they are called with to what they have, and give the sum; the
`k`-th allocation fails. -/
def adder (k : Nat) : Client Int Int Int where
  invoke total a := (total + a, total + a)
  throwsAt n := n == k

def copies : List (Op Int Int) :=
  [.constructFrom 0 10, .copyConstruct 1 0, .call 0 5, .construct 2, .assign 2 0, .call 1 1,
    .call 2 1, .destroy 0, .destroy 1, .destroy 2]

theorem safe_values_iff_copies : ∃ m trace, (machine (adder 9)).Run {} copies m trace ∧
    Event.done (.call 1 1) (some 11) ∈ trace ∧ Event.done (.call 2 1) (some 16) ∈ trace ∧
    SafeValues (adder 9) copies := by
  have hrun := Machine.run_of_isSome (m := machine (adder 9)) {} copies (by decide)
  exact ⟨_, _, hrun, by decide, by decide, (safe_values_iff hrun).mpr (by decide)⟩

theorem not_safe_of_fault {C : Client F A R} {ops : List (Op F A)} {trace : List (Event F A R)}
    (h : ((machine C).exec {} ops).map Prod.snd = some trace) (hfault : Event.fault ∈ trace) :
    ¬ SafeValues C ops := by
  intro hsafe
  obtain ⟨m, hrun⟩ := Machine.run_of_trace h
  exact (hsafe ops List.prefix_rfl m trace hrun).defined hfault

def selfAssignment : List (Op Int Int) := [.constructFrom 0 10, .assign 0 0]

def copyOfEmpty : List (Op Int Int) := [.construct 0, .copyConstruct 1 0]

def assignmentOfEmpty : List (Op Int Int) := [.construct 0, .constructFrom 1 10, .assign 1 0]

def failedAssignment : List (Op Int Int) :=
  [.constructFrom 0 10, .constructFrom 1 20, .assign 0 1, .destroy 0]

theorem careless_copies_fault :
    ¬ SafeValues (adder 9) selfAssignment ∧ ¬ SafeValues (adder 9) copyOfEmpty ∧
      ¬ SafeValues (adder 9) assignmentOfEmpty ∧ ¬ SafeValues (adder 2) failedAssignment := by
  have hself : ((machine (adder 9)).exec {} selfAssignment).map Prod.snd =
      some [.done (.constructFrom 0 10) none, .fault] := by decide
  have hcopy : ((machine (adder 9)).exec {} copyOfEmpty).map Prod.snd =
      some [.done (.construct 0) none, .fault] := by decide
  have hassign : ((machine (adder 9)).exec {} assignmentOfEmpty).map Prod.snd =
      some [.done (.construct 0) none, .done (.constructFrom 1 10) none, .fault] := by decide
  have hfailed : ((machine (adder 2)).exec {} failedAssignment).map Prod.snd =
      some [.done (.constructFrom 0 10) none, .done (.constructFrom 1 20) none,
        .threw (.assign 0 1), .fault] := by decide
  exact ⟨not_safe_of_fault hself (by decide), not_safe_of_fault hcopy (by decide),
    not_safe_of_fault hassign (by decide), not_safe_of_fault hfailed (by decide)⟩

end CppCodes.Guarantees.FunctionValues
