import CppCodes.Library.Machine
import Mathlib.Data.List.Nodup
import Mathlib.Logic.Function.Basic

/-!
# Numbered lanes

For every key a lane of numbers in transit. A number is issued at the end of its lane,
one more than the last one of the key; it may be lost wherever it is, and it is
delivered from the front. Nothing else happens to it, so the numbers of a key are
delivered in the order in which they were issued, each at most once, and every number
issued is delivered, lost or still in transit (`Kept.of_run`).
-/

set_option autoImplicit false

namespace CppCodes.Library.Lanes

open scoped List

variable {κ : Type*}

structure State (κ : Type*) where
  /-- The number issued last. -/
  last : κ → Int
  transit : κ → List Int

inductive Action (κ : Type*) where
  | issue (key : κ)
  | lose (key : κ) (place : Nat)
  | deliver (key : κ)

inductive Event (κ : Type*) where
  | issued (key : κ) (n : Int)
  | lost (key : κ) (n : Int)
  | delivered (key : κ) (n : Int)

variable [DecidableEq κ]

def machine (κ : Type*) [DecidableEq κ] : Machine (State κ) (Action κ) (Event κ) where
  step s
    | .issue key =>
        let n := s.last key + 1
        some ({ last := Function.update s.last key n
                transit := Function.update s.transit key (s.transit key ++ [n]) },
          [.issued key n])
    | .lose key place =>
        match (s.transit key)[place]? with
        | none => none
        | some n =>
            some ({ s with
              transit := Function.update s.transit key ((s.transit key).eraseIdx place) },
              [.lost key n])
    | .deliver key =>
        match s.transit key with
        | [] => none
        | n :: rest =>
            some ({ s with transit := Function.update s.transit key rest }, [.delivered key n])

def issuedOf (key : κ) (trace : List (Event κ)) : List Int :=
  trace.filterMap fun
    | .issued k n => if k = key then some n else none
    | _ => none

def lostOf (key : κ) (trace : List (Event κ)) : List Int :=
  trace.filterMap fun
    | .lost k n => if k = key then some n else none
    | _ => none

def deliveredOf (key : κ) (trace : List (Event κ)) : List Int :=
  trace.filterMap fun
    | .delivered k n => if k = key then some n else none
    | _ => none

theorem step_issue (s : State κ) (key : κ) :
    (machine κ).step s (.issue key) =
      some ({ last := Function.update s.last key (s.last key + 1)
              transit := Function.update s.transit key (s.transit key ++ [s.last key + 1]) },
        [.issued key (s.last key + 1)]) := rfl

theorem step_lose {s : State κ} {key : κ} {before behind : List Int} {n : Int}
    (h : s.transit key = before ++ n :: behind) :
    (machine κ).step s (.lose key before.length) =
      some ({ s with transit := Function.update s.transit key (before ++ behind) },
        [.lost key n]) := by
  have hat : (s.transit key)[before.length]? = some n := by
    rw [h, List.getElem?_append_right (Nat.le_refl _), Nat.sub_self, List.getElem?_cons_zero]
  have hrest : (s.transit key).eraseIdx before.length = before ++ behind := by
    rw [h, List.eraseIdx_append_of_length_le (Nat.le_refl _), Nat.sub_self, List.eraseIdx_cons_zero]
  simp only [machine, hat, hrest]

theorem step_deliver {s : State κ} {key : κ} {rest : List Int} {n : Int}
    (h : s.transit key = n :: rest) :
    (machine κ).step s (.deliver key) =
      some ({ s with transit := Function.update s.transit key rest }, [.delivered key n]) := by
  simp only [machine, h]

/-- What a step does, in the words of the three rules above. -/
theorem step_cases {s t : State κ} {a : Action κ} {seen : List (Event κ)}
    (h : (machine κ).step s a = some (t, seen)) :
    (∃ key, t = { last := Function.update s.last key (s.last key + 1)
                  transit := Function.update s.transit key (s.transit key ++ [s.last key + 1]) } ∧
      seen = [.issued key (s.last key + 1)]) ∨
    (∃ key before n behind, s.transit key = before ++ n :: behind ∧
      t = { s with transit := Function.update s.transit key (before ++ behind) } ∧
      seen = [.lost key n]) ∨
    (∃ key n rest, s.transit key = n :: rest ∧
      t = { s with transit := Function.update s.transit key rest } ∧
      seen = [.delivered key n]) := by
  cases a with
  | issue key =>
    cases h
    exact Or.inl ⟨key, rfl, rfl⟩
  | lose key place =>
    cases hat : (s.transit key)[place]? with
    | none => simp [machine, hat] at h
    | some n =>
      obtain ⟨hlt, hn⟩ := List.getElem?_eq_some_iff.mp hat
      have hsplit : s.transit key =
          (s.transit key).take place ++ n :: (s.transit key).drop (place + 1) := by
        rw [← hn, List.getElem_cons_drop, List.take_append_drop]
      simp only [machine, hat, Option.some.injEq, Prod.mk.injEq] at h
      obtain ⟨rfl, rfl⟩ := h
      refine Or.inr (Or.inl ⟨key, _, n, _, hsplit, ?_, rfl⟩)
      rw [List.eraseIdx_eq_take_drop_succ]
  | deliver key =>
    cases hlane : s.transit key with
    | nil => simp [machine, hlane] at h
    | cons n rest =>
      simp only [machine, hlane, Option.some.injEq, Prod.mk.injEq] at h
      obtain ⟨rfl, rfl⟩ := h
      exact Or.inr (Or.inr ⟨key, n, rest, hlane, rfl, rfl⟩)

section Traces

variable {key key' : κ} {n : Int} {trace later : List (Event κ)}

@[simp] theorem issuedOf_append : issuedOf key (trace ++ later) = issuedOf key trace ++ issuedOf key later :=
  List.filterMap_append

@[simp] theorem lostOf_append : lostOf key (trace ++ later) = lostOf key trace ++ lostOf key later :=
  List.filterMap_append

@[simp] theorem deliveredOf_append :
    deliveredOf key (trace ++ later) = deliveredOf key trace ++ deliveredOf key later :=
  List.filterMap_append

theorem issuedOf_snoc_eq {e : Event κ} (he : issuedOf key [e] = []) :
    issuedOf key (trace ++ [e]) = issuedOf key trace := by
  rw [issuedOf_append, he, List.append_nil]

theorem lostOf_snoc_eq {e : Event κ} (he : lostOf key [e] = []) :
    lostOf key (trace ++ [e]) = lostOf key trace := by
  rw [lostOf_append, he, List.append_nil]

theorem deliveredOf_snoc_eq {e : Event κ} (he : deliveredOf key [e] = []) :
    deliveredOf key (trace ++ [e]) = deliveredOf key trace := by
  rw [deliveredOf_append, he, List.append_nil]

end Traces

/-- Numbers of one key are issued in order, move in order and are all accounted for. -/
structure Kept (s : State κ) (trace : List (Event κ)) (key : κ) : Prop where
  issued : (issuedOf key trace).Pairwise (· < ·)
  bounded : ∀ n ∈ issuedOf key trace, n ≤ s.last key
  ordered : (deliveredOf key trace ++ s.transit key).Pairwise (· < ·)
  conserved : (issuedOf key trace).Perm (deliveredOf key trace ++ s.transit key ++ lostOf key trace)

/-- Where the step concerns another key, nothing changes. -/
theorem Kept.frame {s t : State κ} {trace seen : List (Event κ)} {key : κ} (h : Kept s trace key)
    (last : t.last key = s.last key) (transit : t.transit key = s.transit key)
    (issued : issuedOf key seen = []) (lost : lostOf key seen = [])
    (delivered : deliveredOf key seen = []) : Kept t (trace ++ seen) key := by
  constructor
  · rw [issuedOf_append, issued, List.append_nil]
    exact h.issued
  · rw [issuedOf_append, issued, List.append_nil, last]
    exact h.bounded
  · rw [deliveredOf_append, delivered, List.append_nil, transit]
    exact h.ordered
  · rw [issuedOf_append, deliveredOf_append, lostOf_append, issued, lost, delivered, transit,
      List.append_nil, List.append_nil, List.append_nil]
    exact h.conserved

theorem Kept.issue {s : State κ} {trace : List (Event κ)} {key : κ} (h : Kept s trace key)
    (other : κ) :
    Kept { last := Function.update s.last other (s.last other + 1)
           transit := Function.update s.transit other (s.transit other ++ [s.last other + 1]) }
      (trace ++ [.issued other (s.last other + 1)]) key := by
  by_cases hkey : other = key
  · subst hkey
    have hbound : ∀ n ∈ deliveredOf other trace ++ s.transit other, n ≤ s.last other := by
      intro n hn
      exact h.bounded n (h.conserved.mem_iff.mpr (List.mem_append_left _ hn))
    have hnew : issuedOf other [Event.issued other (s.last other + 1)] = [s.last other + 1] := by
      simp [issuedOf]
    constructor
    · rw [issuedOf_append, hnew, List.pairwise_append]
      refine ⟨h.issued, List.pairwise_singleton _ _, ?_⟩
      intro m hm k hk
      have hle := h.bounded m hm
      rw [List.mem_singleton.mp hk]
      omega
    · intro m hm
      rw [issuedOf_append, hnew, List.mem_append, List.mem_singleton] at hm
      dsimp only
      rw [Function.update_self]
      rcases hm with hm | hm
      · have hle := h.bounded m hm
        omega
      · omega
    · dsimp only
      rw [deliveredOf_snoc_eq rfl, Function.update_self, ← List.append_assoc, List.pairwise_append]
      refine ⟨h.ordered, List.pairwise_singleton _ _, ?_⟩
      intro m hm k hk
      have hle := hbound m hm
      rw [List.mem_singleton.mp hk]
      omega
    · dsimp only
      rw [issuedOf_append, hnew, deliveredOf_snoc_eq rfl, lostOf_snoc_eq rfl, Function.update_self,
        ← List.append_assoc]
      exact (h.conserved.append_right _).trans (by
        rw [List.append_assoc, List.append_assoc (deliveredOf other trace ++ s.transit other)]
        exact List.perm_append_comm.append_left _)
  · exact h.frame (Function.update_of_ne (Ne.symm hkey) _ _)
      (Function.update_of_ne (Ne.symm hkey) _ _) (by simp [issuedOf, hkey]) rfl rfl

theorem Kept.lose {s : State κ} {trace : List (Event κ)} {key other : κ} (h : Kept s trace key)
    {before behind : List Int} {n : Int} (hlane : s.transit other = before ++ n :: behind) :
    Kept { s with transit := Function.update s.transit other (before ++ behind) }
      (trace ++ [.lost other n]) key := by
  by_cases hkey : other = key
  · subst hkey
    have hlost : lostOf other [Event.lost other n] = [n] := by simp [lostOf]
    constructor
    · rw [issuedOf_snoc_eq rfl]
      exact h.issued
    · rw [issuedOf_snoc_eq rfl]
      exact h.bounded
    · have hsub : (before ++ behind).Sublist (s.transit other) := by
        rw [hlane]
        exact (List.Sublist.refl _).append (List.sublist_cons_self _ _)
      dsimp only
      rw [deliveredOf_snoc_eq rfl, Function.update_self]
      exact h.ordered.sublist ((List.Sublist.refl _).append hsub)
    · have hperm := h.conserved
      rw [hlane] at hperm
      dsimp only
      rw [issuedOf_snoc_eq rfl, deliveredOf_snoc_eq rfl, lostOf_append, hlost, Function.update_self]
      refine hperm.trans ?_
      have hmove : (before ++ n :: behind).Perm (before ++ behind ++ [n]) :=
        List.perm_middle.trans (List.perm_append_singleton n _).symm
      calc deliveredOf other trace ++ (before ++ n :: behind) ++ lostOf other trace
        _ ~ deliveredOf other trace ++ (before ++ behind ++ [n]) ++ lostOf other trace :=
          (hmove.append_left _).append_right _
        _ ~ deliveredOf other trace ++ (before ++ behind) ++ (lostOf other trace ++ [n]) := by
          rw [← List.append_assoc (deliveredOf other trace), List.append_assoc _ [n]]
          exact List.perm_append_comm.append_left _
  · exact h.frame rfl (Function.update_of_ne (Ne.symm hkey) _ _) rfl (by simp [lostOf, hkey]) rfl

theorem Kept.deliver {s : State κ} {trace : List (Event κ)} {key other : κ} (h : Kept s trace key)
    {rest : List Int} {n : Int} (hlane : s.transit other = n :: rest) :
    Kept { s with transit := Function.update s.transit other rest }
      (trace ++ [.delivered other n]) key := by
  by_cases hkey : other = key
  · subst hkey
    have hdelivered : deliveredOf other [Event.delivered other n] = [n] := by simp [deliveredOf]
    have hsame : deliveredOf other (trace ++ [Event.delivered other n]) ++ rest =
        deliveredOf other trace ++ s.transit other := by
      rw [deliveredOf_append, hdelivered, hlane, List.append_assoc, List.singleton_append]
    constructor
    · rw [issuedOf_snoc_eq rfl]
      exact h.issued
    · rw [issuedOf_snoc_eq rfl]
      exact h.bounded
    · dsimp only
      rw [Function.update_self, hsame]
      exact h.ordered
    · dsimp only
      rw [Function.update_self, hsame, issuedOf_snoc_eq rfl, lostOf_snoc_eq rfl]
      exact h.conserved
  · exact h.frame rfl (Function.update_of_ne (Ne.symm hkey) _ _) rfl rfl
      (by simp [deliveredOf, hkey])

theorem Kept.step {s t : State κ} {a : Action κ} {trace seen : List (Event κ)} {key : κ}
    (h : Kept s trace key) (step : (machine κ).step s a = some (t, seen)) :
    Kept t (trace ++ seen) key := by
  rcases step_cases step with ⟨other, rfl, rfl⟩ | ⟨other, before, n, behind, hlane, rfl, rfl⟩ |
    ⟨other, n, rest, hlane, rfl, rfl⟩
  · exact h.issue other
  · exact h.lose hlane
  · exact h.deliver hlane

theorem Kept.of_run {s t : State κ} {actions : List (Action κ)} {trace : List (Event κ)}
    (empty : ∀ key, s.transit key = []) (h : (machine κ).Run s actions t trace) (key : κ) :
    Kept t trace key := by
  refine h.invariant (I := fun t trace => Kept t trace key) ?_ fun hI hstep => hI.step hstep
  refine ⟨List.Pairwise.nil, fun _ hn => absurd hn List.not_mem_nil, ?_, ?_⟩
  · rw [empty]
    exact List.Pairwise.nil
  · rw [empty]
    exact List.Perm.nil

end CppCodes.Library.Lanes
