import CppCodes.Source.HftTest.SpscRing

/-!
# The queue between the pipeline stages

Source: frame_work/src/spsc_queue.h:8-45. The members and the accesses are those
of `SPSCRing` (`buffer_` for `data_`, `mask_` for `mask()`); `pop` reports its
result through a reference parameter and `size` is computed by masking.
-/

set_option autoImplicit false

namespace CppCodes.Source.FrameWork

open CppCodes.Source.HftTest

/-- `SpscQueue<T, 2^k>`. -/
abbrev SpscQueue (T : Type) (k : Nat) := SPSCRing T k

namespace SpscQueue

variable {T : Type} {k : Nat}

def push (q : SpscQueue T k) (item : T) : SpscQueue T k × Bool := SPSCRing.push q item

/-- What the caller of `pop(out)` sees: the returned `bool` and `out` afterwards,
untouched when the queue was empty. -/
def answer (out : T) (found : Option T) : Bool × T := (found.isSome, found.getD out)

def pop (q : SpscQueue T k) (out : T) : SpscQueue T k × Bool × T :=
  ((SPSCRing.pop q).1, answer out (SPSCRing.pop q).2)

def size (q : SpscQueue T k) : Nat :=
  (q.head.val + SPSCRing.capacity k - q.tail.val) &&& SPSCRing.mask k

/-- Both classes count the same elements. -/
theorem size_eq (q : SpscQueue T k) : size q = SPSCRing.size q := by
  have hh := q.head.isLt
  have ht := q.tail.isLt
  unfold size SPSCRing.size SPSCRing.mask SPSCRing.capacity
  rw [Nat.and_two_pow_sub_one_eq_mod]
  split
  · next h =>
    have hsum : q.head.val + 2 ^ k - q.tail.val = (q.head.val - q.tail.val) + 2 ^ k := by omega
    rw [hsum, Nat.add_mod_right, Nat.mod_eq_of_lt (by omega)]
  · next h =>
    rw [Nat.mod_eq_of_lt (by omega)]
    omega

/-- A push is taken, unless the queue is full. -/
theorem push_cases (q : SpscQueue T k) (v : T) :
    ∃ q', (push q v = (q', true) ∧ q'.contents = q.contents ++ [v]) ∨
      (push q v = (q', false) ∧ q'.contents = q.contents) := by
  obtain ⟨-, hcontents⟩ := q.push_spec v
  refine ⟨(SPSCRing.push q v).1, ?_⟩
  cases hpushed : (SPSCRing.push q v).2 with
  | true =>
    rw [hpushed, if_pos rfl] at hcontents
    exact Or.inl ⟨Prod.ext rfl hpushed, hcontents⟩
  | false =>
    rw [hpushed, if_neg Bool.false_ne_true] at hcontents
    exact Or.inr ⟨Prod.ext rfl hpushed, hcontents⟩

/-- A pop takes the oldest item, if there is one. -/
theorem pop_cases (q : SpscQueue T k) :
    ∃ q', (SPSCRing.pop q = (q', none) ∧ q'.contents = q.contents ∧ q.contents = []) ∨
      ∃ v, SPSCRing.pop q = (q', some v) ∧ q.contents = v :: q'.contents := by
  obtain ⟨hcontents, hhead⟩ := SPSCRing.pop_spec q
  refine ⟨(SPSCRing.pop q).1, ?_⟩
  cases hpopped : (SPSCRing.pop q).2 with
  | none =>
    rw [hpopped] at hcontents hhead
    exact Or.inl ⟨Prod.ext rfl hpopped, hcontents.symm, List.head?_eq_none_iff.mp hhead.symm⟩
  | some v =>
    rw [hpopped] at hcontents
    exact Or.inr ⟨v, Prod.ext rfl hpopped, hcontents⟩

/-- The atomic accesses of one producer and one consumer; `pop` passes `out`. -/
abbrev machine (T : Type) (k : Nat) := SPSCRing.machine T T k

end SpscQueue

end CppCodes.Source.FrameWork
