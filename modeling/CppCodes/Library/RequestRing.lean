import Mathlib.Data.List.Basic
import Mathlib.Tactic.Common

/-!
# Requests and completions

A ring between a program and a kernel. The program prepares operations and submits
them; the kernel completes those it has in any order; the program takes the
completions in the order they arrived. An operation and its completion carry the
owner it was prepared for.

An owner that never has two operations out is idle, waits for one or has one
answer to take. The rules say how these change.
-/

set_option autoImplicit false

namespace CppCodes.Library

structure RequestRing (ω κ ρ : Type) where
  prepared : List (ω × κ)
  inFlight : List (ω × κ)
  completed : List (ω × ρ)

namespace RequestRing

variable {ω κ ρ : Type}

def empty : RequestRing ω κ ρ := ⟨[], [], []⟩

def prepare (r : RequestRing ω κ ρ) (w : ω) (op : κ) : RequestRing ω κ ρ :=
  { r with prepared := r.prepared ++ [(w, op)] }

def submit (r : RequestRing ω κ ρ) : RequestRing ω κ ρ :=
  { r with prepared := [], inFlight := r.inFlight ++ r.prepared }

/-- The kernel answers its `i`-th operation, which is one of `w`. -/
def complete (r : RequestRing ω κ ρ) (i : Nat) (w : ω) (result : ρ) : RequestRing ω κ ρ :=
  { r with inFlight := r.inFlight.eraseIdx i, completed := r.completed ++ [(w, result)] }

/-- The program takes the oldest completion. -/
def take (r : RequestRing ω κ ρ) : RequestRing ω κ ρ :=
  { r with completed := r.completed.tail }

variable [DecidableEq ω]

/-- What the entries of one owner say, in order. -/
def entriesOf {α : Type} (xs : List (ω × α)) (w : ω) : List α :=
  xs.filterMap fun x => if x.1 = w then some x.2 else none

section Entries

variable {α : Type} {xs ys : List (ω × α)} {w u : ω} {x : α}

@[simp] theorem entriesOf_nil : entriesOf ([] : List (ω × α)) w = [] := rfl

@[simp] theorem entriesOf_cons_self : entriesOf ((w, x) :: xs) w = x :: entriesOf xs w :=
  List.filterMap_cons_some (if_pos rfl)

theorem entriesOf_cons_ne (h : u ≠ w) : entriesOf ((w, x) :: xs) u = entriesOf xs u :=
  List.filterMap_cons_none (if_neg h.symm)

@[simp] theorem entriesOf_append : entriesOf (xs ++ ys) w = entriesOf xs w ++ entriesOf ys w :=
  List.filterMap_append ..

/-- A list around one of its entries. -/
theorem split_at {β : Type} {zs : List β} {i : Nat} {z : β} (h : zs[i]? = some z) :
    ∃ before after, zs = before ++ z :: after ∧ zs.eraseIdx i = before ++ after := by
  obtain ⟨hlt, rfl⟩ := List.getElem?_eq_some_iff.mp h
  refine ⟨zs.take i, zs.drop (i + 1), ?_, List.eraseIdx_eq_take_drop_succ ..⟩
  rw [← List.drop_eq_getElem_cons hlt, List.take_append_drop]

end Entries

/-- The operations of `w` without an answer. -/
def ops (r : RequestRing ω κ ρ) (w : ω) : List κ := entriesOf (r.inFlight ++ r.prepared) w

def answers (r : RequestRing ω κ ρ) (w : ω) : List ρ := entriesOf r.completed w

structure Idle (r : RequestRing ω κ ρ) (w : ω) : Prop where
  ops : r.ops w = []
  answers : r.answers w = []

structure Waits (r : RequestRing ω κ ρ) (w : ω) (op : κ) : Prop where
  ops : r.ops w = [op]
  answers : r.answers w = []

structure Answered (r : RequestRing ω κ ρ) (w : ω) (result : ρ) : Prop where
  ops : r.ops w = []
  answers : r.answers w = [result]

/-- The two rings look the same to `w`. -/
structure Same (r s : RequestRing ω κ ρ) (w : ω) : Prop where
  ops : s.ops w = r.ops w
  answers : s.answers w = r.answers w

variable {r s t : RequestRing ω κ ρ} {w u : ω} {op : κ} {result : ρ}

theorem Same.trans (h : r.Same s w) (h' : s.Same t w) : r.Same t w :=
  ⟨h'.ops.trans h.ops, h'.answers.trans h.answers⟩

theorem Idle.congr (h : r.Idle w) (same : r.Same s w) : s.Idle w :=
  ⟨same.ops.trans h.ops, same.answers.trans h.answers⟩

theorem Waits.congr (h : r.Waits w op) (same : r.Same s w) : s.Waits w op :=
  ⟨same.ops.trans h.ops, same.answers.trans h.answers⟩

theorem Answered.congr (h : r.Answered w result) (same : r.Same s w) : s.Answered w result :=
  ⟨same.ops.trans h.ops, same.answers.trans h.answers⟩

theorem prepare_same (h : u ≠ w) : r.Same (r.prepare w op) u := by
  refine ⟨?_, rfl⟩
  simp only [ops, prepare, entriesOf_append, entriesOf_cons_ne h, entriesOf_nil, List.append_nil]

theorem Idle.prepare (h : r.Idle w) : (r.prepare w op).Waits w op := by
  refine ⟨?_, h.answers⟩
  have hops := h.ops
  simp only [RequestRing.ops, entriesOf_append, List.append_eq_nil_iff] at hops
  simp [RequestRing.ops, RequestRing.prepare, hops]

theorem submit_same : r.Same r.submit w := ⟨by simp [ops, submit], rfl⟩

theorem complete_same {i : Nat} (hi : r.inFlight[i]? = some (w, op)) (h : u ≠ w) :
    r.Same (r.complete i w result) u := by
  obtain ⟨before, after, hsplit, herase⟩ := split_at hi
  constructor
  · simp only [ops, complete, herase]
    simp only [hsplit, entriesOf_append, entriesOf_cons_ne h]
  · simp only [answers, complete, entriesOf_append, entriesOf_cons_ne h, entriesOf_nil,
      List.append_nil]

/-- An operation in flight is among those of its owner. -/
theorem mem_ops {i : Nat} (hi : r.inFlight[i]? = some (w, op)) : op ∈ r.ops w := by
  obtain ⟨before, after, hsplit, -⟩ := split_at hi
  simp [ops, hsplit]

theorem Waits.complete {i : Nat} {op' : κ} (h : r.Waits w op)
    (hi : r.inFlight[i]? = some (w, op')) (result : ρ) :
    op' = op ∧ (r.complete i w result).Answered w result := by
  obtain ⟨before, after, hsplit, herase⟩ := split_at hi
  have hops := h.ops
  simp only [RequestRing.ops, hsplit, entriesOf_append, entriesOf_cons_self, List.append_assoc,
    List.append_eq_singleton_iff, List.cons_append, List.cons_eq_cons, List.append_eq_nil_iff,
    reduceCtorEq, and_false, or_false] at hops
  obtain ⟨hbefore, hop, hafter, hprepared⟩ := hops
  refine ⟨hop, ?_, ?_⟩
  · simp only [RequestRing.ops, RequestRing.complete, herase, entriesOf_append, hbefore, hafter,
      hprepared, List.append_nil]
  · have hanswers := h.answers
    simp only [RequestRing.answers] at hanswers
    simp only [RequestRing.answers, RequestRing.complete, entriesOf_append, hanswers,
      entriesOf_cons_self, entriesOf_nil, List.nil_append]

theorem take_same {rest : List (ω × ρ)} (hc : r.completed = (w, result) :: rest) (h : u ≠ w) :
    r.Same r.take u := by
  refine ⟨rfl, ?_⟩
  simp only [answers, take, hc, List.tail_cons, entriesOf_cons_ne h]

theorem mem_answers_of_mem (hin : (w, result) ∈ r.completed) : result ∈ r.answers w := by
  obtain ⟨before, after, hsplit⟩ := List.append_of_mem hin
  simp [answers, hsplit]

/-- A completion to take is among the answers of its owner. -/
theorem mem_answers {rest : List (ω × ρ)} (hc : r.completed = (w, result) :: rest) :
    result ∈ r.answers w :=
  mem_answers_of_mem (hc ▸ List.mem_cons_self)

theorem Answered.take {result' : ρ} {rest : List (ω × ρ)} (h : r.Answered w result)
    (hc : r.completed = (w, result') :: rest) : result' = result ∧ r.take.Idle w := by
  have hanswers := h.answers
  simp only [RequestRing.answers, hc, entriesOf_cons_self, List.cons_eq_cons] at hanswers
  refine ⟨hanswers.1, h.ops, ?_⟩
  simp only [RequestRing.answers, RequestRing.take, hc, List.tail_cons, hanswers.2]

/-- Who waits has no completion to take, and who is idle nothing at all. -/
theorem Waits.not_completed {rest : List (ω × ρ)} (h : r.Waits w op) :
    r.completed ≠ (w, result) :: rest := by
  intro hc
  have hmem := mem_answers hc
  rw [h.answers] at hmem
  cases hmem

theorem Idle.not_completed {rest : List (ω × ρ)} (h : r.Idle w) :
    r.completed ≠ (w, result) :: rest := by
  intro hc
  have hmem := mem_answers hc
  rw [h.answers] at hmem
  cases hmem

theorem Idle.not_inFlight {i : Nat} (h : r.Idle w) : r.inFlight[i]? ≠ some (w, op) := by
  intro hi
  have hmem := mem_ops hi
  rw [h.ops] at hmem
  cases hmem

theorem Answered.not_inFlight {i : Nat} (h : r.Answered w result) :
    r.inFlight[i]? ≠ some (w, op) := by
  intro hi
  have hmem := mem_ops hi
  rw [h.ops] at hmem
  cases hmem

end RequestRing

end CppCodes.Library
