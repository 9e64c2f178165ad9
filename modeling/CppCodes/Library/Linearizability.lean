import CppCodes.Library.Machine
import Mathlib.Logic.Function.Basic

/-!
# Sequential objects and linearizability

A sequential object answers one operation at a time. Its atomic version serves
several threads: a call is announced, takes effect in one indivisible step at
some later moment and then returns. A history of calls and returns is
linearizable when the atomic object can produce it, that is, when every
operation can be given one instant between its call and its return such that
all results are those of the sequential object.
-/

set_option autoImplicit false

namespace CppCodes.Library

/-- `apply` returns the next state and the result. -/
structure SeqObject (σ ω ρ : Type*) where
  apply : σ → ω → σ × ρ

namespace SeqObject

variable {σ ω ρ ι : Type*}

inductive Status (ω ρ : Type*) where
  | idle
  | called (op : ω)
  | done (result : ρ)

inductive Event (ι ω ρ : Type*) where
  | call (thread : ι) (op : ω)
  | ret (thread : ι) (result : ρ)
  deriving DecidableEq

inductive AtomicAction (ι ω : Type*) where
  | call (thread : ι) (op : ω)
  | take (thread : ι)
  | ret (thread : ι)

structure AtomicState (σ ι ω ρ : Type*) where
  obj : σ
  status : ι → Status ω ρ

variable [DecidableEq ι]

/-- The atomic version of an object; `take` is the instant of an operation. -/
def atomic (o : SeqObject σ ω ρ) : Machine (AtomicState σ ι ω ρ) (AtomicAction ι ω) (Event ι ω ρ) where
  step s
    | .call t op =>
        match s.status t with
        | .idle => some ({ s with status := Function.update s.status t (.called op) }, [.call t op])
        | _ => none
    | .take t =>
        match s.status t with
        | .called op =>
            some (⟨(o.apply s.obj op).1,
              Function.update s.status t (.done (o.apply s.obj op).2)⟩, [])
        | _ => none
    | .ret t =>
        match s.status t with
        | .done result =>
            some ({ s with status := Function.update s.status t .idle }, [.ret t result])
        | _ => none

def Linearizable (o : SeqObject σ ω ρ) (start : σ) (history : List (Event ι ω ρ)) : Prop :=
  ∃ actions s, o.atomic.Run ⟨start, fun _ => .idle⟩ actions s history

variable (o : SeqObject σ ω ρ)

theorem run_call {s : AtomicState σ ι ω ρ} {t : ι} (op : ω) (h : s.status t = .idle) :
    o.atomic.Run s [.call t op] { s with status := Function.update s.status t (.called op) }
      [.call t op] := by
  apply Machine.Run.single
  simp only [atomic, h]

/-- The last moments of a call: it takes effect and returns. -/
theorem run_take_ret {s : AtomicState σ ι ω ρ} {t : ι} {op : ω} (h : s.status t = .called op) :
    o.atomic.Run s [.take t, .ret t]
      ⟨(o.apply s.obj op).1, Function.update s.status t .idle⟩
      [.ret t (o.apply s.obj op).2] := by
  have htake : o.atomic.step s (.take t) = some (⟨(o.apply s.obj op).1,
      Function.update s.status t (.done (o.apply s.obj op).2)⟩, []) := by
    simp only [atomic, h]
  have hret : o.atomic.step ⟨(o.apply s.obj op).1,
      Function.update s.status t (.done (o.apply s.obj op).2)⟩ (.ret t) =
      some (⟨(o.apply s.obj op).1, Function.update s.status t .idle⟩,
        [.ret t (o.apply s.obj op).2]) := by
    simp only [atomic, Function.update_self, Function.update_idem]
  exact Machine.run_cons_iff.mpr ⟨_, _, _, htake, Machine.Run.single hret, rfl⟩

end SeqObject

/-! ## Bounded first-in first-out queues -/

namespace BoundedQueue

inductive Op (T A : Type*) where
  | push (v : T)
  | pop (arg : A)
  deriving DecidableEq

inductive Result (R : Type*) where
  | pushed (accepted : Bool)
  | popped (value : R)
  deriving DecidableEq

variable {T A R : Type*}

/-- A queue of at most `capacity` elements. A push on a full queue and a pop on
an empty one change nothing; `answer` says how a pop reports what it found. -/
def object (capacity : Nat) (answer : A → Option T → R) :
    SeqObject (List T) (Op T A) (Result R) where
  apply q
    | .push v => if q.length < capacity then (q ++ [v], .pushed true) else (q, .pushed false)
    | .pop arg =>
        match q with
        | [] => ([], .popped (answer arg none))
        | v :: rest => (rest, .popped (answer arg (some v)))

end BoundedQueue

end CppCodes.Library
