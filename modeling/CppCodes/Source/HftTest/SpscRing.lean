import CppCodes.Library.Circular
import CppCodes.Library.Linearizability
import Mathlib.Data.Nat.Bitwise

/-!
# Single-producer single-consumer ring

Source: hft_test/include/spsc_ring.h:11-52. `Capacity` is the power of two the
static assertion asks for; an index is a `size_t` below it, so `index + 1` cannot
wrap at 2^64. `push`, `pop` and `size` are the member functions run without
interruption; `machine` runs the atomic accesses of one producer and one consumer
in any order. The accesses are sequentially consistent steps.
-/

set_option autoImplicit false

namespace CppCodes.Source.HftTest

open CppCodes.Library

/-- `SPSCRing<T, 2^k>`. -/
structure SPSCRing (T : Type) (k : Nat) where
  head : Fin (2 ^ k)
  tail : Fin (2 ^ k)
  data : Fin (2 ^ k) → T

namespace SPSCRing

variable {T : Type} {k : Nat}

def capacity (k : Nat) : Nat := 2 ^ k

def mask (k : Nat) : Nat := capacity k - 1

/-- `(index + 1) & mask()`. -/
def next (index : Fin (2 ^ k)) : Fin (2 ^ k) :=
  ⟨(index.val + 1) &&& mask k, by
    rw [mask, capacity, Nat.and_two_pow_sub_one_eq_mod]
    exact Nat.mod_lt _ (Nat.two_pow_pos k)⟩

theorem next_eq_advance (index : Fin (2 ^ k)) : next index = Circular.advance index :=
  Fin.ext (Nat.and_two_pow_sub_one_eq_mod _ k)

/-- The constructor; the slots hold whatever `T{}` is. -/
def empty (data : Fin (2 ^ k) → T) : SPSCRing T k where
  head := ⟨0, Nat.two_pow_pos k⟩
  tail := ⟨0, Nat.two_pow_pos k⟩
  data := data

def push (r : SPSCRing T k) (v : T) : SPSCRing T k × Bool :=
  if next r.head = r.tail then (r, false)
  else ({ r with data := Function.update r.data r.head v, head := next r.head }, true)

def pop (r : SPSCRing T k) : SPSCRing T k × Option T :=
  if r.tail = r.head then (r, none)
  else ({ r with tail := next r.tail }, some (r.data r.tail))

def size (r : SPSCRing T k) : Nat :=
  if r.head.val ≥ r.tail.val then r.head.val - r.tail.val
  else capacity k - (r.tail.val - r.head.val)

/-- The queued elements, oldest first. -/
def contents (r : SPSCRing T k) : List T := (Circular.cells r.tail r.head).map r.data

theorem size_eq (r : SPSCRing T k) : r.size = r.contents.length := by
  rw [contents, List.length_map, Circular.cells_length]
  rfl

@[simp] theorem contents_empty (data : Fin (2 ^ k) → T) : (empty data).contents = [] := by
  have h := (Circular.cells_eq_nil_iff (empty data).tail (empty data).head).mpr rfl
  rw [contents, h, List.map_nil]

theorem contents_eq_nil_iff (r : SPSCRing T k) : r.contents = [] ↔ r.tail = r.head := by
  rw [contents, List.map_eq_nil_iff, Circular.cells_eq_nil_iff]

theorem contents_full_iff (r : SPSCRing T k) :
    r.contents.length = capacity k - 1 ↔ next r.head = r.tail := by
  rw [contents, List.length_map, Circular.cells_length, next_eq_advance]
  exact Circular.occupied_full_iff r.tail r.head

theorem contents_length_lt (r : SPSCRing T k) : r.contents.length < capacity k := by
  rw [contents, List.length_map, Circular.cells_length]
  exact Circular.occupied_lt r.tail r.head

/-- Writing the head slot is invisible until the head moves. -/
theorem contents_write_head (r : SPSCRing T k) (v : T) :
    ({ r with data := Function.update r.data r.head v } : SPSCRing T k).contents = r.contents := by
  apply List.map_congr_left
  intro i hi
  have hne : i ≠ r.head := by
    intro he
    subst he
    exact Circular.head_not_mem_cells _ _ hi
  exact Function.update_of_ne hne _ _

theorem contents_advance_head (r : SPSCRing T k) (h : next r.head ≠ r.tail) :
    ({ r with head := next r.head } : SPSCRing T k).contents = r.contents ++ [r.data r.head] := by
  unfold contents
  rw [next_eq_advance] at h ⊢
  rw [Circular.cells_advance_head _ _ h, List.map_append, List.map_cons, List.map_nil]

theorem contents_advance_tail (r : SPSCRing T k) (h : r.tail ≠ r.head) :
    r.contents = r.data r.tail :: ({ r with tail := next r.tail } : SPSCRing T k).contents := by
  unfold contents
  rw [Circular.cells_advance_tail _ _ h, next_eq_advance, List.map_cons]

/-- An uninterrupted `push` appends, unless all slots but one are taken. -/
theorem push_spec (r : SPSCRing T k) (v : T) :
    (r.push v).2 = decide (r.contents.length < capacity k - 1) ∧
      (r.push v).1.contents = if (r.push v).2 then r.contents ++ [v] else r.contents := by
  have hlt := r.contents_length_lt
  have hfull := r.contents_full_iff
  unfold push
  split
  · next h => simp [hfull.mpr h]
  · next h =>
    have hroom : r.contents.length < capacity k - 1 := by
      have hne := mt hfull.mp h
      omega
    have hslot : (({ r with data := Function.update r.data r.head v } : SPSCRing T k)).data r.head =
        v := Function.update_self ..
    refine ⟨by simp [hroom], ?_⟩
    rw [if_pos rfl, ← contents_write_head r v]
    have happ := contents_advance_head { r with data := Function.update r.data r.head v } h
    rwa [hslot] at happ

/-- An uninterrupted `pop` takes the oldest element, if there is one. -/
theorem pop_spec (r : SPSCRing T k) :
    r.contents = (r.pop).2.toList ++ (r.pop).1.contents ∧ (r.pop).2 = r.contents.head? := by
  unfold pop
  split
  · next h => simp [(contents_eq_nil_iff r).mpr h]
  · next h =>
    rw [contents_advance_tail r h]
    exact ⟨rfl, rfl⟩

/-! ## Interleaved steps -/

/-- Where a call of `push` stands. -/
inductive PushPc (T : Type) (k : Nat) where
  | idle
  | loadedHead (v : T) (head : Fin (2 ^ k))
  | checked (v : T) (head nextHead : Fin (2 ^ k))
  | written (v : T) (head nextHead : Fin (2 ^ k))

/-- Where a call of `pop` stands; `arg` is what the caller passed. -/
inductive PopPc (T A : Type) (k : Nat) where
  | idle
  | loadedTail (arg : A) (tail : Fin (2 ^ k))
  | checked (arg : A) (tail : Fin (2 ^ k))
  | read (arg : A) (tail : Fin (2 ^ k)) (v : T)

structure State (T A : Type) (k : Nat) where
  ring : SPSCRing T k
  producer : PushPc T k := .idle
  consumer : PopPc T A k := .idle

inductive Action (T A : Type) where
  | pushLoadHead (v : T)
  | pushLoadTail
  | pushWrite
  | pushStoreHead
  | popLoadTail (arg : A)
  | popLoadHead
  | popRead
  | popStoreTail
  deriving DecidableEq

inductive Event (T A : Type) where
  | pushCalled (v : T)
  | pushReturned (v : T) (accepted : Bool)
  | popCalled (arg : A)
  | popReturned (arg : A) (found : Option T)
  deriving DecidableEq

variable {A : Type}

/-- One atomic access. A call that finds the ring full (empty) returns with the
load that shows it; every other call returns with the store of its own index. -/
def machine (T A : Type) (k : Nat) : Machine (State T A k) (Action T A) (Event T A) where
  step s
    | .pushLoadHead v =>
        match s.producer with
        | .idle => some ({ s with producer := .loadedHead v s.ring.head }, [.pushCalled v])
        | _ => none
    | .pushLoadTail =>
        match s.producer with
        | .loadedHead v head =>
            if next head = s.ring.tail then
              some ({ s with producer := .idle }, [.pushReturned v false])
            else some ({ s with producer := .checked v head (next head) }, [])
        | _ => none
    | .pushWrite =>
        match s.producer with
        | .checked v head nextHead =>
            some ({ s with
              ring := { s.ring with data := Function.update s.ring.data head v }
              producer := .written v head nextHead }, [])
        | _ => none
    | .pushStoreHead =>
        match s.producer with
        | .written v _ nextHead =>
            some ({ s with ring := { s.ring with head := nextHead }, producer := .idle },
              [.pushReturned v true])
        | _ => none
    | .popLoadTail arg =>
        match s.consumer with
        | .idle => some ({ s with consumer := .loadedTail arg s.ring.tail }, [.popCalled arg])
        | _ => none
    | .popLoadHead =>
        match s.consumer with
        | .loadedTail arg tail =>
            if tail = s.ring.head then
              some ({ s with consumer := .idle }, [.popReturned arg none])
            else some ({ s with consumer := .checked arg tail }, [])
        | _ => none
    | .popRead =>
        match s.consumer with
        | .checked arg tail =>
            some ({ s with consumer := .read arg tail (s.ring.data tail) }, [])
        | _ => none
    | .popStoreTail =>
        match s.consumer with
        | .read arg tail v =>
            some ({ s with ring := { s.ring with tail := next tail }, consumer := .idle },
              [.popReturned arg (some v)])
        | _ => none

/-- A push whose steps are not interrupted is the function `push`. -/
theorem run_push_alone (s : State T A k) (v : T) (h : s.producer = .idle) :
    ∃ actions, (machine T A k).Run s actions { s with ring := (s.ring.push v).1 }
      [.pushCalled v, .pushReturned v (s.ring.push v).2] := by
  obtain ⟨ring, producer, consumer⟩ := s
  cases h
  by_cases hfull : next ring.head = ring.tail
  · refine ⟨[.pushLoadHead v, .pushLoadTail], ?_⟩
    simp [Machine.Run, Machine.exec, machine, push, hfull]
  · refine ⟨[.pushLoadHead v, .pushLoadTail, .pushWrite, .pushStoreHead], ?_⟩
    simp [Machine.Run, Machine.exec, machine, push, hfull]

/-- A pop whose steps are not interrupted is the function `pop`. -/
theorem run_pop_alone (s : State T A k) (arg : A) (h : s.consumer = .idle) :
    ∃ actions, (machine T A k).Run s actions { s with ring := (s.ring.pop).1 }
      [.popCalled arg, .popReturned arg (s.ring.pop).2] := by
  obtain ⟨ring, producer, consumer⟩ := s
  cases h
  by_cases hempty : ring.tail = ring.head
  · refine ⟨[.popLoadTail arg, .popLoadHead], ?_⟩
    simp [Machine.Run, Machine.exec, machine, pop, hempty]
  · refine ⟨[.popLoadTail arg, .popLoadHead, .popRead, .popStoreTail], ?_⟩
    simp [Machine.Run, Machine.exec, machine, pop, hempty]

/-- Values whose push returned true, in order. -/
def accepted (trace : List (Event T A)) : List T :=
  trace.filterMap fun
    | .pushReturned v true => some v
    | _ => none

/-- Values popped, in order. -/
def popped (trace : List (Event T A)) : List T :=
  trace.filterMap fun
    | .popReturned _ (some v) => some v
    | _ => none

end SPSCRing

end CppCodes.Source.HftTest
