import CppCodes.Library.Machine
import Mathlib.Algebra.BigOperators.Fin
import Mathlib.Algebra.Order.BigOperators.Group.Finset
import Mathlib.Data.Fintype.Basic
import Mathlib.Logic.Function.Basic

/-!
# Threads that are started and joined

One thread starts `n` others, joins them in the order of their numbers and goes on. The
started ones take steps on what they share, in any order. An invariant of shared and local
states that a step of any thread keeps holds in every run (`run_invariant`), and at the last
join all threads are finished. When each step of a thread brings it nearer to its end and
some unfinished thread can always step, a run is never stuck and cannot go on for ever.
-/

set_option autoImplicit false

namespace CppCodes.Library

/-- `step k l s` is what thread `k` does with its own state `l` and the shared one. -/
structure Workers (σ L : Type*) (n : Nat) where
  begun : Fin n → L
  step : Fin n → L → σ → Option (L × σ)
  finished : L → Bool

namespace Workers

variable {σ L : Type*} {n : Nat} (w : Workers σ L n)

/-- The threads started have a local state; `joined` of them have been joined. -/
structure State (σ L : Type*) (n : Nat) where
  shared : σ
  locals : Fin n → Option L
  joined : Nat

inductive Action (n : Nat) where
  | spawn (k : Fin n)
  | run (k : Fin n)
  | join (k : Fin n)
  deriving DecidableEq

/-- Threads are started in the order of their numbers, all before the first join. -/
def machine : Machine (State σ L n) (Action n) Unit where
  step s
    | .spawn k =>
        if s.locals k = none ∧ ∀ j < k, s.locals j ≠ none then
          some ({ s with locals := Function.update s.locals k (some (w.begun k)) }, [])
        else none
    | .run k =>
        match s.locals k with
        | none => none
        | some l =>
            (w.step k l s.shared).map fun next =>
              ({ s with
                shared := next.2
                locals := Function.update s.locals k (some next.1) }, [])
    | .join k =>
        match s.locals k with
        | none => none
        | some l =>
            if k.val = s.joined ∧ (∀ j, s.locals j ≠ none) ∧ w.finished l = true then
              some ({ s with joined := s.joined + 1 }, [])
            else none

def start (s : σ) : State σ L n := ⟨s, fun _ => none, 0⟩

variable {w} {t u : State σ L n} {a : Action n} {seen : List Unit}

/-- What a step can do. -/
theorem step_cases (h : w.machine.step t a = some (u, seen)) :
    (∃ k, a = .spawn k ∧ t.locals k = none ∧
      u = { t with locals := Function.update t.locals k (some (w.begun k)) }) ∨
    (∃ k l next, a = .run k ∧ t.locals k = some l ∧ w.step k l t.shared = some next ∧
      u = { t with
        shared := next.2
        locals := Function.update t.locals k (some next.1) }) ∨
    ∃ k l, a = .join k ∧ t.locals k = some l ∧ k.val = t.joined ∧ w.finished l = true ∧
      u = { t with joined := t.joined + 1 } := by
  cases a with
  | spawn k =>
    simp only [machine] at h
    split at h
    · rename_i hready
      cases h
      exact Or.inl ⟨k, rfl, hready.1, rfl⟩
    · cases h
  | run k =>
    simp only [machine] at h
    split at h
    · cases h
    · rename_i l hl
      obtain ⟨next, hnext, heq⟩ := Option.map_eq_some_iff.mp h
      cases heq
      exact Or.inr (Or.inl ⟨k, l, next, rfl, hl, hnext, rfl⟩)
  | join k =>
    simp only [machine] at h
    split at h
    · cases h
    · rename_i l hl
      split at h
      · rename_i hready
        cases h
        exact Or.inr (Or.inr ⟨k, l, rfl, hl, hready.1, hready.2.2, rfl⟩)
      · cases h

/-! ## Invariants -/

/-- Starting a thread keeps it, and so does each step of a thread. -/
structure Keeps (w : Workers σ L n) (I : σ → (Fin n → Option L) → Prop) : Prop where
  spawn : ∀ {s ls k}, I s ls → ls k = none → I s (Function.update ls k (some (w.begun k)))
  step : ∀ {s ls k l next}, I s ls → ls k = some l → w.step k l s = some next →
    I next.2 (Function.update ls k (some next.1))

theorem run_invariant {I : σ → (Fin n → Option L) → Prop} (keeps : Keeps w I) {s : σ}
    (hstart : I s fun _ => none) {actions : List (Action n)} {trace : List Unit}
    (run : w.machine.Run (start s) actions t trace) : I t.shared t.locals := by
  refine run.invariant (I := fun t _ => I t.shared t.locals) hstart ?_
  intro t trace a u seen inv hstep
  rcases step_cases hstep with ⟨k, -, hk, rfl⟩ | ⟨k, l, next, -, hl, hnext, rfl⟩ |
    ⟨k, l, -, -, -, -, rfl⟩
  · exact keeps.spawn inv hk
  · exact keeps.step inv hl hnext
  · exact inv

/-- A thread that is finished takes no step. -/
def Stops (w : Workers σ L n) : Prop :=
  ∀ {k l s}, w.finished l = true → w.step k l s = none

/-- What has been joined is finished. -/
def Joined (w : Workers σ L n) (t : State σ L n) : Prop :=
  t.joined ≤ n ∧ ∀ k : Fin n, k.val < t.joined → ∃ l, t.locals k = some l ∧ w.finished l = true

theorem joined_of_run (hstops : Stops w) {s : σ} {actions : List (Action n)} {trace : List Unit}
    (run : w.machine.Run (start s) actions t trace) : Joined w t := by
  refine run.invariant (I := fun t _ => Joined w t) ⟨Nat.zero_le n, ?_⟩ ?_
  · intro k hk
    exact absurd hk (Nat.not_lt_zero _)
  · intro t trace a u seen inv hstep
    obtain ⟨hle, hjoined⟩ := inv
    rcases step_cases hstep with ⟨k, -, hk, rfl⟩ | ⟨k, l, next, -, hl, hnext, rfl⟩ |
      ⟨k, l, -, hl, hk, hfinished, rfl⟩
    · refine ⟨hle, ?_⟩
      intro j hj
      obtain ⟨l, hl, hfinished⟩ := hjoined j hj
      have hne : j ≠ k := by
        rintro rfl
        simp [hk] at hl
      exact ⟨l, by simp [hne, hl], hfinished⟩
    · refine ⟨hle, ?_⟩
      intro j hj
      obtain ⟨l', hl', hfinished⟩ := hjoined j hj
      have hne : j ≠ k := by
        rintro rfl
        rw [hl] at hl'
        cases hl'
        simp [hstops hfinished] at hnext
      exact ⟨l', by simp [hne, hl'], hfinished⟩
    · have hlt := k.isLt
      refine ⟨by dsimp only; omega, ?_⟩
      intro j hj
      rcases Nat.lt_succ_iff_lt_or_eq.mp hj with hlt | heq
      · exact hjoined j hlt
      · have hjk : j = k := Fin.ext (heq.trans hk.symm)
        exact ⟨l, by rw [hjk]; exact hl, hfinished⟩

/-- After the last join all threads are finished. -/
theorem finished_of_joined (hstops : Stops w) {s : σ} {actions : List (Action n)}
    {trace : List Unit} (run : w.machine.Run (start s) actions t trace) (hall : t.joined = n)
    (k : Fin n) : ∃ l, t.locals k = some l ∧ w.finished l = true :=
  (joined_of_run hstops run).2 k (hall.symm ▸ k.isLt)

/-- The local states after one of them has changed. -/
theorem update_eq_some_iff {ls : Fin n → Option L} {k j : Fin n} {l l' : L} :
    Function.update ls k (some l) j = some l' ↔ j = k ∧ l' = l ∨ j ≠ k ∧ ls j = some l' := by
  by_cases hjk : j = k
  · subst hjk
    simp [eq_comm]
  · simp [hjk]

/-! ## Ends -/

/-- What is left to do. -/
def cost (w : Workers σ L n) (rank : L → Nat) (t : State σ L n) : Nat :=
  (∑ k, (t.locals k).elim (rank (w.begun k) + 1) rank) + (n - t.joined)

/-- A sum over the threads when one of them changes. -/
theorem sum_update {K : Type*} (f : Fin n → K → Nat) (ls : Fin n → K) (k : Fin n) (l : K) :
    (∑ j, f j (Function.update ls k l j)) + f k (ls k) = (∑ j, f j (ls j)) + f k l := by
  rw [← Finset.add_sum_erase _ _ (Finset.mem_univ k),
    ← Finset.add_sum_erase Finset.univ (fun j => f j (ls j)) (Finset.mem_univ k)]
  have hsame : ∑ j ∈ Finset.univ.erase k, f j (Function.update ls k l j) =
      ∑ j ∈ Finset.univ.erase k, f j (ls j) := by
    refine Finset.sum_congr rfl ?_
    intro j hj
    rw [Function.update_of_ne (Finset.ne_of_mem_erase hj)]
  rw [hsame, Function.update_self]
  omega

/-- While `I` holds, each step of a thread brings it nearer to its end. -/
def Descends (w : Workers σ L n) (I : σ → (Fin n → Option L) → Prop) (rank : L → Nat) : Prop :=
  ∀ {s ls k l next}, I s ls → ls k = some l → w.step k l s = some next → rank next.1 < rank l

variable {I : σ → (Fin n → Option L) → Prop} {rank : L → Nat}

theorem cost_lt (descends : Descends w I rank) (inv : I t.shared t.locals)
    (hstep : w.machine.step t a = some (u, seen)) : cost w rank u < cost w rank t := by
  have hsum := sum_update (fun j (o : Option L) => o.elim (rank (w.begun j) + 1) rank) t.locals
  rcases step_cases hstep with ⟨k, -, hk, rfl⟩ | ⟨k, l, next, -, hl, hnext, rfl⟩ |
    ⟨k, l, -, hl, hk, hfinished, rfl⟩
  · have hchange := hsum k (some (w.begun k))
    simp only [hk, Option.elim] at hchange
    simp only [cost, Option.elim]
    omega
  · have hchange := hsum k (some next.1)
    have hless := descends inv hl hnext
    simp only [hl, Option.elim] at hchange
    simp only [cost, Option.elim]
    omega
  · have hlt := k.isLt
    simp only [cost]
    omega

/-- A run takes no more steps than there are, with one start and one join for each thread. -/
theorem run_length_le (keeps : Keeps w I) (descends : Descends w I rank) {s : σ}
    (hstart : I s fun _ => none) {actions : List (Action n)} {trace : List Unit}
    (run : w.machine.Run (start s) actions t trace) :
    actions.length ≤ (∑ k, (rank (w.begun k) + 1)) + n := by
  have hcost : actions.length + cost w rank t ≤ cost w rank (start s : State σ L n) := by
    refine run.induction (P := fun actions t _ =>
      actions.length + cost w rank t ≤ cost w rank (start s : State σ L n)) (by simp) ?_
    intro actions t trace a u seen before ih hstep
    have hless := cost_lt descends (run_invariant keeps hstart before) hstep
    rw [List.length_append, List.length_singleton]
    omega
  have hall : cost w rank (start s : State σ L n) = (∑ k, (rank (w.begun k) + 1)) + n := rfl
  omega

/-- Some unfinished thread can step. -/
def Goes (w : Workers σ L n) (s : σ) (ls : Fin n → Option L) : Prop :=
  (∃ k l, ls k = some l ∧ w.finished l = false) → ∃ k l next, ls k = some l ∧ w.step k l s = some next

theorem exists_step (hgoes : Goes w t.shared t.locals) (hjoined : t.joined < n) :
    ∃ a u, w.machine.step t a = some (u, []) := by
  by_cases hspawned : ∃ k, t.locals k = none
  · have hspawned' : ∃ m, ∃ h : m < n, t.locals ⟨m, h⟩ = none := by
      obtain ⟨k, hk⟩ := hspawned
      exact ⟨k.val, k.isLt, hk⟩
    obtain ⟨hlt, hnone⟩ := Nat.find_spec hspawned'
    refine ⟨.spawn ⟨_, hlt⟩, _, if_pos ⟨hnone, ?_⟩⟩
    intro j hj hjnone
    exact Nat.find_min hspawned' hj ⟨j.isLt, hjnone⟩
  · have hall : ∀ j, t.locals j ≠ none := fun j hj => hspawned ⟨j, hj⟩
    obtain ⟨l, hl⟩ := Option.ne_none_iff_exists'.mp (hall ⟨t.joined, hjoined⟩)
    cases hfinished : w.finished l with
    | true =>
      refine ⟨.join ⟨t.joined, hjoined⟩, { t with joined := t.joined + 1 }, ?_⟩
      simp only [machine, hl, hfinished, and_true, true_and, if_pos hall]
    | false =>
      obtain ⟨k, l', next, hl', hnext⟩ := hgoes ⟨_, l, hl, hfinished⟩
      refine ⟨.run k, { t with
        shared := next.2
        locals := Function.update t.locals k (some next.1) }, ?_⟩
      simp only [machine, hl', hnext, Option.map_some]

/-- From wherever a run is, it can be brought to its end. -/
theorem run_completes (keeps : Keeps w I) (descends : Descends w I rank)
    (hgoes : ∀ {s ls}, I s ls → Goes w s ls) (hstops : Stops w) {s : σ}
    (hstart : I s fun _ => none) {actions : List (Action n)} {trace : List Unit}
    (run : w.machine.Run (start s) actions t trace) :
    ∃ more u later, w.machine.Run t more u later ∧ u.joined = n := by
  induction hc : cost w rank t using Nat.strong_induction_on generalizing t actions trace with
  | _ c ih =>
    by_cases hjoined : t.joined = n
    · exact ⟨[], t, [], Machine.Run.nil t, hjoined⟩
    · have hle := (joined_of_run hstops run).1
      have inv := run_invariant keeps hstart run
      obtain ⟨a, u, hstep⟩ := exists_step (hgoes inv) (Nat.lt_of_le_of_ne hle hjoined)
      have hless := cost_lt descends inv hstep
      obtain ⟨more, v, later, hmore, hend⟩ := ih (cost w rank u) (hc ▸ hless)
        (run.append (Machine.Run.single hstep)) rfl
      exact ⟨a :: more, v, [] ++ later, Machine.Run.cons hstep hmore, hend⟩

end Workers

end CppCodes.Library
