import Mathlib.Data.List.Induction
import Mathlib.Tactic.Common

/-!
# Labelled machines and their runs

A machine is a partial step function that also reports what an observer sees of
the step. A run is a list of actions executed in order; it fails as soon as one
of them is not enabled. The observations of a run are concatenated into its
trace, so histories need no ghost fields in the state.

The rules are the ones used over and over: induction from the right end of a run
(`Run.induction`), an invariant between state and trace (`Run.invariant`), the
same under a condition met by every step (`Run.invariant_of_steps`) and forward
simulation between two machines, step by step (`Run.lockstep`), step by run
(`Run.simulation`) or without the steps that come to nothing (`Run.effective`).
-/

set_option autoImplicit false

namespace CppCodes.Library

/-- `step s a = none` when `a` is not enabled in `s`; otherwise the next state
and the observations of the step, oldest first. -/
structure Machine (σ α ε : Type*) where
  step : σ → α → Option (σ × List ε)

namespace Machine

variable {σ α ε : Type*} (m : Machine σ α ε)

def exec : σ → List α → Option (σ × List ε)
  | s, [] => some (s, [])
  | s, a :: rest =>
      match m.step s a with
      | none => none
      | some (t, seen) =>
          match exec t rest with
          | none => none
          | some (u, later) => some (u, seen ++ later)

/-- `Run m s as t tr`: from `s` the actions `as` lead to `t` with trace `tr`. -/
def Run (s : σ) (actions : List α) (t : σ) (trace : List ε) : Prop :=
  m.exec s actions = some (t, trace)

variable {m}

theorem Run.nil (s : σ) : m.Run s [] s [] := rfl

theorem run_nil_iff {s t : σ} {trace : List ε} :
    m.Run s [] t trace ↔ t = s ∧ trace = [] := by
  simp only [Run, exec, Option.some.injEq, Prod.mk.injEq]
  exact ⟨fun h => ⟨h.1.symm, h.2.symm⟩, fun h => ⟨h.1.symm, h.2.symm⟩⟩

theorem run_cons_iff {s u : σ} {a : α} {rest : List α} {trace : List ε} :
    m.Run s (a :: rest) u trace ↔
      ∃ t seen later, m.step s a = some (t, seen) ∧ m.Run t rest u later ∧
        trace = seen ++ later := by
  unfold Run
  rw [exec]
  cases hs : m.step s a with
  | none => simp
  | some next =>
    obtain ⟨t, seen⟩ := next
    cases hr : m.exec t rest with
    | none =>
      simp only [hr, reduceCtorEq, false_iff]
      intro hparts
      obtain ⟨t', seen', later, hstep, hrest, -⟩ := hparts
      cases hstep
      rw [hr] at hrest
      cases hrest
    | some final =>
      obtain ⟨u', later⟩ := final
      simp only [hr, Option.some.injEq, Prod.mk.injEq]
      constructor
      · intro hboth
        obtain ⟨rfl, rfl⟩ := hboth
        exact ⟨t, seen, later, ⟨rfl, rfl⟩, hr, rfl⟩
      · intro hparts
        obtain ⟨t', seen', later', ⟨rfl, rfl⟩, hrest, rfl⟩ := hparts
        rw [hr] at hrest
        cases hrest
        exact ⟨rfl, rfl⟩

theorem Run.single {s t : σ} {a : α} {seen : List ε} (h : m.step s a = some (t, seen)) :
    m.Run s [a] t seen :=
  run_cons_iff.mpr ⟨t, seen, [], h, Run.nil t, by simp⟩

theorem Run.cons {s t u : σ} {a : α} {rest : List α} {seen later : List ε}
    (hstep : m.step s a = some (t, seen)) (hrest : m.Run t rest u later) :
    m.Run s (a :: rest) u (seen ++ later) :=
  run_cons_iff.mpr ⟨t, seen, later, hstep, hrest, rfl⟩

theorem run_append_iff {s u : σ} {first second : List α} {trace : List ε} :
    m.Run s (first ++ second) u trace ↔
      ∃ t seen later, m.Run s first t seen ∧ m.Run t second u later ∧ trace = seen ++ later := by
  induction first generalizing s trace with
  | nil =>
    constructor
    · intro h
      exact ⟨s, [], trace, Run.nil s, h, rfl⟩
    · intro hparts
      obtain ⟨t, seen, later, hfirst, hsecond, rfl⟩ := hparts
      obtain ⟨rfl, rfl⟩ := run_nil_iff.mp hfirst
      exact hsecond
  | cons a rest ih =>
    rw [List.cons_append, run_cons_iff]
    constructor
    · intro hparts
      obtain ⟨t, seen, later, hstep, hrest, rfl⟩ := hparts
      obtain ⟨v, seen', later', hv, hu, rfl⟩ := ih.mp hrest
      exact ⟨v, seen ++ seen', later', Run.cons hstep hv, hu, by simp⟩
    · intro hparts
      obtain ⟨v, seen, later, hv, hu, rfl⟩ := hparts
      obtain ⟨t, seen', later', hstep, hrest, rfl⟩ := run_cons_iff.mp hv
      exact ⟨t, seen', later' ++ later, hstep, ih.mpr ⟨v, later', later, hrest, hu, rfl⟩, by simp⟩

theorem Run.append {s t u : σ} {first second : List α} {seen later : List ε}
    (hfirst : m.Run s first t seen) (hsecond : m.Run t second u later) :
    m.Run s (first ++ second) u (seen ++ later) :=
  run_append_iff.mpr ⟨t, seen, later, hfirst, hsecond, rfl⟩

theorem run_snoc_iff {s u : σ} {actions : List α} {a : α} {trace : List ε} :
    m.Run s (actions ++ [a]) u trace ↔
      ∃ t before seen, m.Run s actions t before ∧ m.step t a = some (u, seen) ∧
        trace = before ++ seen := by
  rw [run_append_iff]
  constructor
  · intro hparts
    obtain ⟨t, before, later, hrun, hlast, rfl⟩ := hparts
    obtain ⟨v, seen, rest, hstep, hnil, rfl⟩ := run_cons_iff.mp hlast
    obtain ⟨rfl, rfl⟩ := run_nil_iff.mp hnil
    exact ⟨t, before, seen, hrun, hstep, by simp⟩
  · intro hparts
    obtain ⟨t, before, seen, hrun, hstep, rfl⟩ := hparts
    exact ⟨t, before, seen, hrun, Run.single hstep, rfl⟩

/-- A run whose actions are all enabled, with the state and the trace it computes. -/
theorem run_of_isSome (s : σ) (actions : List α) (h : (m.exec s actions).isSome = true) :
    m.Run s actions ((m.exec s actions).get h).1 ((m.exec s actions).get h).2 := by
  exact (Option.some_get h).symm

theorem run_of_trace {s : σ} {actions : List α} {trace : List ε}
    (h : (m.exec s actions).map Prod.snd = some trace) : ∃ t, m.Run s actions t trace := by
  obtain ⟨⟨t, seen⟩, hexec, rfl⟩ := Option.map_eq_some_iff.mp h
  exact ⟨t, hexec⟩

/-- Where every action is always enabled, every list of actions is a run. -/
theorem run_total (h : ∀ s a, (m.step s a).isSome = true) (s : σ) (actions : List α) :
    ∃ t trace, m.Run s actions t trace := by
  induction actions generalizing s with
  | nil => exact ⟨s, [], Run.nil s⟩
  | cons a rest ih =>
    obtain ⟨⟨u, seen⟩, hstep⟩ := Option.isSome_iff_exists.mp (h s a)
    obtain ⟨t, later, hrest⟩ := ih u
    exact ⟨t, seen ++ later, Run.cons hstep hrest⟩

/-- Runs are deterministic: the actions fix the state and the trace. -/
theorem Run.deterministic {s t u : σ} {actions : List α} {seen later : List ε}
    (ht : m.Run s actions t seen) (hu : m.Run s actions u later) : t = u ∧ seen = later := by
  unfold Run at ht hu
  rw [ht] at hu
  simpa using hu

/-- Induction from the right end of a run: the last step comes last. -/
theorem Run.induction {s : σ} {P : List α → σ → List ε → Prop} (start : P [] s [])
    (last : ∀ {actions t trace a u seen}, m.Run s actions t trace → P actions t trace →
      m.step t a = some (u, seen) → P (actions ++ [a]) u (trace ++ seen))
    {actions : List α} {t : σ} {trace : List ε} (h : m.Run s actions t trace) :
    P actions t trace := by
  induction actions using List.reverseRecOn generalizing t trace with
  | nil =>
    obtain ⟨rfl, rfl⟩ := run_nil_iff.mp h
    exact start
  | append_singleton actions a ih =>
    obtain ⟨v, before, seen, hrun, hstep, rfl⟩ := run_snoc_iff.mp h
    exact last hrun (ih hrun) hstep

/-- A relation between state and trace that every step keeps holds after every run. -/
theorem Run.invariant {s : σ} {I : σ → List ε → Prop} (start : I s [])
    (keep : ∀ {t trace a u seen}, I t trace → m.step t a = some (u, seen) → I u (trace ++ seen))
    {actions : List α} {t : σ} {trace : List ε} (h : m.Run s actions t trace) : I t trace :=
  h.induction (P := fun _ t trace => I t trace) start fun _ hI hstep => keep hI hstep

/-- What only one action changes is the same behind a run without it. -/
theorem Run.unchanged {κ : Type*} {f : σ → κ} {only : α}
    (keep : ∀ {t a u seen}, m.step t a = some (u, seen) → a ≠ only → f u = f t)
    {s t : σ} {actions : List α} {trace : List ε} (h : m.Run s actions t trace)
    (hnone : only ∉ actions) : f t = f s := by
  induction actions generalizing s trace with
  | nil =>
    obtain ⟨rfl, -⟩ := run_nil_iff.mp h
    rfl
  | cons a rest ih =>
    obtain ⟨u, seen, later, hstep, hrest, -⟩ := run_cons_iff.mp h
    simp only [List.mem_cons, not_or] at hnone
    rw [ih hrest hnone.2, keep hstep (Ne.symm hnone.1)]

variable (m) in
/-- Every step of the run from `s` along the actions meets `cond`, read in the
state before the step. -/
def StepsMeet (cond : σ → α → Prop) : σ → List α → Prop
  | _, [] => True
  | s, a :: rest => cond s a ∧ ∀ t seen, m.step s a = some (t, seen) → StepsMeet cond t rest

instance StepsMeet.decidable {cond : σ → α → Prop} [∀ s a, Decidable (cond s a)] :
    ∀ s actions, Decidable (m.StepsMeet cond s actions)
  | _, [] => isTrue trivial
  | s, a :: rest =>
      match h : m.step s a with
      | none => decidable_of_iff (cond s a) (by simp [StepsMeet, h])
      | some (t, seen) =>
          have : Decidable (m.StepsMeet cond t rest) := StepsMeet.decidable t rest
          decidable_of_iff (cond s a ∧ m.StepsMeet cond t rest) (by simp [StepsMeet, h])

theorem stepsMeet_append_iff {cond : σ → α → Prop} {s t : σ} {first second : List α}
    {seen : List ε} (hfirst : m.Run s first t seen) :
    m.StepsMeet cond s (first ++ second) ↔
      m.StepsMeet cond s first ∧ m.StepsMeet cond t second := by
  induction first generalizing s seen with
  | nil =>
    obtain ⟨rfl, rfl⟩ := run_nil_iff.mp hfirst
    simp [StepsMeet]
  | cons a rest ih =>
    obtain ⟨v, now, later, hstep, hrest, rfl⟩ := run_cons_iff.mp hfirst
    have hv : ∀ tail, (∀ t seen, m.step s a = some (t, seen) → m.StepsMeet cond t tail) ↔
        m.StepsMeet cond v tail := by
      intro tail
      constructor
      · exact fun h => h v now hstep
      · intro h t seen ht
        rw [hstep] at ht
        cases ht
        exact h
    simp only [List.cons_append, StepsMeet, hv, ih hrest, and_assoc]

theorem stepsMeet_snoc_iff {cond : σ → α → Prop} {s t : σ} {actions : List α} {a : α}
    {seen : List ε} (h : m.Run s actions t seen) :
    m.StepsMeet cond s (actions ++ [a]) ↔ m.StepsMeet cond s actions ∧ cond t a := by
  rw [stepsMeet_append_iff h]
  simp [StepsMeet]

theorem StepsMeet.of_append {cond : σ → α → Prop} {s : σ} {first second : List α}
    (h : m.StepsMeet cond s (first ++ second)) : m.StepsMeet cond s first := by
  induction first generalizing s with
  | nil => trivial
  | cons a rest ih =>
    obtain ⟨hnow, hlater⟩ := h
    exact ⟨hnow, fun t seen hstep => ih (hlater t seen hstep)⟩

/-- An invariant kept by the steps that meet `cond` holds after every run whose
steps all meet it. -/
theorem Run.invariant_of_steps {s : σ} {cond : σ → α → Prop} {I : σ → List ε → Prop}
    (start : I s [])
    (keep : ∀ {t trace a u seen}, I t trace → cond t a → m.step t a = some (u, seen) →
      I u (trace ++ seen))
    {actions : List α} {t : σ} {trace : List ε} (h : m.Run s actions t trace)
    (hcond : m.StepsMeet cond s actions) : I t trace := by
  refine h.induction (P := fun actions t trace => m.StepsMeet cond s actions → I t trace)
    (fun _ => start) ?_ hcond
  intro actions t trace a u seen hrun ih hstep hmeet
  obtain ⟨hbefore, hlast⟩ := (stepsMeet_snoc_iff hrun).mp hmeet
  exact keep (ih hbefore) hlast hstep

variable (m) in
/-- The actions of a run whose steps showed only what is `shown`. -/
def effective (shown : ε → Bool) : σ → List α → List α
  | _, [] => []
  | s, a :: rest =>
      match m.step s a with
      | none => []
      | some (t, seen) => (if seen.all shown then [a] else []) ++ effective shown t rest

variable {σ' α' ε' : Type*} {m' : Machine σ' α' ε'}

/-- Two machines that see the same in every step see the same in every run. -/
theorem Run.lockstep {m'' : Machine σ' α ε} {R : σ → σ' → Prop} {s : σ} {s' : σ'} (start : R s s')
    (keep : ∀ {t t' a u seen}, R t t' → m.step t a = some (u, seen) →
      ∃ u', m''.step t' a = some (u', seen) ∧ R u u')
    {actions : List α} {t : σ} {trace : List ε} (h : m.Run s actions t trace) :
    ∃ t', m''.Run s' actions t' trace ∧ R t t' := by
  refine h.induction (P := fun actions t trace => ∃ t', m''.Run s' actions t' trace ∧ R t t')
    ⟨s', Run.nil s', start⟩ ?_
  intro actions t trace a u seen _ hparts hstep
  obtain ⟨t', hrun', hR⟩ := hparts
  obtain ⟨u', hstep', hR'⟩ := keep hR hstep
  exact ⟨u', hrun'.append (Run.single hstep'), hR'⟩

/-- The other machine goes the same way without the actions that showed something else. -/
theorem Run.effective {m'' : Machine σ' α ε} {R : σ → σ' → Prop} {shown : ε → Bool} {s : σ} {s' : σ'}
    (start : R s s')
    (keep : ∀ {t t' a u seen}, R t t' → m.step t a = some (u, seen) →
      (seen.all shown = true ∧ ∃ u', m''.step t' a = some (u', seen) ∧ R u u') ∨
        (seen.all shown = false ∧ seen.filter shown = [] ∧ R u t'))
    {actions : List α} {t : σ} {trace : List ε} (h : m.Run s actions t trace) :
    ∃ t', m''.Run s' (m.effective shown s actions) t' (trace.filter shown) ∧ R t t' := by
  induction actions generalizing s s' trace with
  | nil =>
    obtain ⟨rfl, rfl⟩ := run_nil_iff.mp h
    exact ⟨s', Run.nil s', start⟩
  | cons a rest ih =>
    obtain ⟨u, seen, later, hstep, hrest, rfl⟩ := run_cons_iff.mp h
    rw [Machine.effective, hstep, List.filter_append]
    rcases keep start hstep with ⟨hall, u', hstep', hR⟩ | ⟨hnot, hnone, hR⟩
    · obtain ⟨t', hrun, ht⟩ := ih hR hrest
      rw [List.filter_eq_self.mpr (List.all_eq_true.mp hall)]
      dsimp only
      rw [if_pos hall]
      exact ⟨t', Run.cons hstep' hrun, ht⟩
    · obtain ⟨t', hrun, ht⟩ := ih hR hrest
      rw [hnone]
      dsimp only
      rw [if_neg (by simp [hnot])]
      exact ⟨t', hrun, ht⟩

/-- Forward simulation: if every step is matched by a run of the other machine
whose trace is related observation by observation through `view` and `view'`,
then so is every run. -/
theorem Run.simulation {κ : Type*} (view : ε → Option κ) (view' : ε' → Option κ)
    {R : σ → σ' → Prop} {s : σ} {s' : σ'} (start : R s s')
    (keep : ∀ {t t' a u seen}, R t t' → m.step t a = some (u, seen) →
      ∃ actions' u' seen', m'.Run t' actions' u' seen' ∧ R u u' ∧
        seen.filterMap view = seen'.filterMap view')
    {actions : List α} {t : σ} {trace : List ε} (h : m.Run s actions t trace) :
    ∃ actions' t' trace', m'.Run s' actions' t' trace' ∧ R t t' ∧
      trace.filterMap view = trace'.filterMap view' := by
  refine h.induction (P := fun _ t trace => ∃ actions' t' trace',
    m'.Run s' actions' t' trace' ∧ R t t' ∧ trace.filterMap view = trace'.filterMap view')
    ⟨[], s', [], Run.nil s', start, rfl⟩ ?_
  intro actions t trace a u seen _ hparts hstep
  obtain ⟨actions', t', trace', hrun', hR, htrace⟩ := hparts
  obtain ⟨more, u', seen', hmore, hR', hseen⟩ := keep hR hstep
  exact ⟨actions' ++ more, u', trace' ++ seen', hrun'.append hmore, hR', by
    simp only [List.filterMap_append, htrace, hseen]⟩

end Machine

end CppCodes.Library
