import CppCodes.Guarantees.VectorRefinement
import CppCodes.Source.StdVector.Comparison
import Mathlib.Data.List.Shortlex
import Mathlib.Order.Compare

/-!
# Vectors are compared in the shortlex order

Both files compare two vectors by their sizes first and then slot by slot, and stop at the first
slot that decides. Only slots of the two vectors are read, and whether a comparison of elements
throws or not, every vector stays as it was.
-/

set_option autoImplicit false

namespace CppCodes.Guarantees.VectorComparisons

open CppCodes.Library CppCodes.Library.Code
open CppCodes.Source.StdVector

variable {T : Type} {E : Element T} {m t : Memory T} {v o i count : Nat} {f g : MyVec} {xs ys : List T}

/-- Nothing but the number of calls has changed. -/
def Kept (m t : Memory T) : Prop := ∃ calls, t = { m with calls := calls }

/-- The buffer of every vector has the size the vector records. -/
def Buffered (m : Memory T) : Prop := ∀ v f, m.vecs v = some f → Sound m.heap f

/-- A comparison of elements has thrown. -/
def Thrown (E : Element T) (m t : Memory T) : Prop := Kept m t ∧ E.Throws

theorem loadBoth_spec (sound : Buffered m) (hv : m.vecs v = some f) (ho : m.vecs o = some g) (hf : i < f.size)
    (hg : i < g.size) (kept : Kept m t) :
    ∃ x y, (elements m.heap f)[i]? = some x ∧ (elements m.heap g)[i]? = some y ∧
      Ensures (loadBoth E f.data g.data i) (fun both u => both = (x, y) ∧ Kept m u) (Thrown E m) t := by
  obtain ⟨calls, rfl⟩ := kept
  obtain ⟨x, -, hx, loadX⟩ := ensures_slot (m := { m with calls := calls }) (R := Thrown E m)
    (sound v f hv) hv hf
  obtain ⟨y, -, hy, loadY⟩ := ensures_slot (m := { m with calls := calls }) (R := Thrown E m)
    (sound o g ho) ho hg
  refine ⟨x, y, hx, hy, ?_⟩
  rw [loadBoth, ensures_bind]
  refine loadX ?_
  rw [ensures_bind]
  refine loadY ?_
  rw [ensures_bind]
  exact ensures_mayThrow ⟨rfl, _, rfl⟩ fun hthrew => ⟨⟨_, rfl⟩, _, hthrew⟩

/-- The second look at two slots that differ finds what the first one found. -/
theorem loadBoth_again (sound : Buffered m) (hv : m.vecs v = some f) (ho : m.vecs o = some g) (hf : i < f.size)
    (hg : i < g.size) (kept : Kept m t) {x y : T} (hx : (elements m.heap f)[i]? = some x)
    (hy : (elements m.heap g)[i]? = some y) :
    Ensures (loadBoth E f.data g.data i) (fun both u => both = (x, y) ∧ Kept m u) (Thrown E m) t := by
  obtain ⟨x', y', hx', hy', hload⟩ := loadBoth_spec (E := E) sound hv ho hf hg kept
  rw [hx] at hx'
  rw [hy] at hy'
  cases hx'
  cases hy'
  exact hload

/-! ## The loops -/

section Loops

variable {α : Type}

/-- The first slots for which there is a verdict decide. -/
def firstVerdict (verdict : T → T → Option α) (otherwise : α) : List T → List T → α
  | x :: xs, y :: ys => (verdict x y).getD (firstVerdict verdict otherwise xs ys)
  | _, _ => otherwise

theorem forReturning_spec {body : Nat → Code (Memory T) (Option α)} (verdict : T → T → Option α)
    (otherwise : α) (hxs : xs.length = i + count) (hys : ys.length = i + count)
    (iteration : ∀ k u, k < xs.length → Kept m u → ∃ x y, xs[k]? = some x ∧ ys[k]? = some y ∧
      Ensures (body k) (fun result w => result = verdict x y ∧ Kept m w) (Thrown E m) u)
    (kept : Kept m t) :
    Ensures (forReturning body otherwise i count)
      (fun result u => result = firstVerdict verdict otherwise (xs.drop i) (ys.drop i) ∧ Kept m u)
      (Thrown E m) t := by
  induction count generalizing i t with
  | zero =>
    rw [List.drop_of_length_le (by omega), List.drop_of_length_le (by omega)]
    exact ⟨rfl, kept⟩
  | succ count ih =>
    obtain ⟨x, y, hx, hy, hbody⟩ := iteration i t (by omega) kept
    obtain ⟨hi, rfl⟩ := List.getElem?_eq_some_iff.mp hx
    obtain ⟨hj, rfl⟩ := List.getElem?_eq_some_iff.mp hy
    rw [forReturning, List.drop_eq_getElem_cons hi, List.drop_eq_getElem_cons hj, firstVerdict]
    refine hbody.andThen ?_
    intro result u hresult
    obtain ⟨rfl, hkept⟩ := hresult
    cases verdict xs[i] ys[i] with
    | some result => exact ⟨rfl, hkept⟩
    | none => exact ih (by omega) (by omega) hkept

/-- The loop of a comparison of two vectors, with `rest` behind the first look at two slots. -/
theorem compareSlots_spec (sound : Buffered m) (hv : m.vecs v = some f) (ho : m.vecs o = some g)
    (hsizes : f.size = g.size) (verdict : T → T → Option α) (otherwise : α)
    {rest : Nat → T × T → Code (Memory T) (Option α)}
    (hrest : ∀ k x y u, k < f.size → (elements m.heap f)[k]? = some x →
      (elements m.heap g)[k]? = some y → Kept m u →
      Ensures (rest k (x, y)) (fun result w => result = verdict x y ∧ Kept m w) (Thrown E m) u) :
    Ensures (forReturning (fun k => loadBoth E f.data g.data k >>= rest k) otherwise 0 f.size)
      (fun result t => result = firstVerdict verdict otherwise (elements m.heap f) (elements m.heap g) ∧
        Kept m t) (Thrown E m) m := by
  have hf : (elements m.heap f).length = 0 + f.size := by
    rw [(sound _ _ hv).elements_length, Nat.zero_add]
  have hg : (elements m.heap g).length = 0 + f.size := by
    rw [(sound _ _ ho).elements_length, Nat.zero_add, hsizes]
  refine forReturning_spec verdict otherwise hf hg ?_ ⟨_, rfl⟩
  intro k u hk kept
  have hkf : k < f.size := lt_of_lt_of_eq hk (hf.trans (Nat.zero_add f.size))
  obtain ⟨x, y, hx, hy, hload⟩ := loadBoth_spec sound hv ho hkf (hsizes ▸ hkf) kept
  refine ⟨x, y, hx, hy, hload.andThen ?_⟩
  intro both w hboth
  obtain ⟨rfl, hkept⟩ := hboth
  exact hrest k x y w hkf hx hy hkept

end Loops

/-! ## The verdicts -/

section Order

variable [LinearOrder T]

theorem firstVerdict_equal (hlen : xs.length = ys.length) :
    firstVerdict (fun x y => if x ≠ y then some false else none) true xs ys = decide (xs = ys) := by
  induction xs generalizing ys with
  | nil =>
    cases ys with
    | nil => rfl
    | cons y ys => cases hlen
  | cons x xs ih =>
    cases ys with
    | nil => cases hlen
    | cons y ys =>
      rw [firstVerdict, ih (Nat.succ.inj hlen)]
      by_cases hxy : x = y
      · simp [hxy]
      · simp [hxy]

/-- What `<=>` says of two vectors that hold `xs` and `ys`. -/
structure InOrder (xs ys : List T) (c : Ordering) : Prop where
  less : c = .lt ↔ List.Shortlex (· < ·) xs ys
  equal : c = .eq ↔ xs = ys
  greater : c = .gt ↔ List.Shortlex (· < ·) ys xs

theorem inOrder_lengths (hlen : xs.length ≠ ys.length) : InOrder xs ys (compare xs.length ys.length) where
  less := by
    rw [compare_lt_iff_lt, List.shortlex_def]
    simp [hlen]
  equal := by
    rw [compare_eq_iff_eq]
    exact ⟨fun h => absurd h hlen, fun h => h ▸ rfl⟩
  greater := by
    rw [compare_gt_iff_gt, List.shortlex_def]
    simp [Ne.symm hlen]

/-- The verdict of `<=>` on two slots. -/
def verdictOf (x y : T) : Option Ordering := if x ≠ y then some (compare x y) else none

theorem verdictOf_self (x : T) : verdictOf x x = none := if_neg fun h => h rfl

theorem verdictOf_of_ne {x y : T} (h : x ≠ y) : verdictOf x y = some (compare x y) := if_pos h

theorem firstVerdict_inOrder (hlen : xs.length = ys.length) :
    InOrder xs ys (firstVerdict verdictOf .eq xs ys) := by
  induction xs generalizing ys with
  | nil =>
    cases ys with
    | nil =>
      rw [firstVerdict.eq_def]
      exact ⟨by simp, by simp, by simp⟩
    | cons y ys => cases hlen
  | cons x xs ih =>
    cases ys with
    | nil => cases hlen
    | cons y ys =>
      rw [firstVerdict]
      by_cases hxy : x = y
      · subst hxy
        obtain ⟨less, equal, greater⟩ := ih (Nat.succ.inj hlen)
        rw [verdictOf_self, Option.getD_none]
        refine ⟨?_, ?_, ?_⟩
        · rw [less, List.shortlex_cons_iff]
        · rw [equal, List.cons_eq_cons, and_iff_right rfl]
        · rw [greater, List.shortlex_cons_iff]
      · rw [verdictOf_of_ne hxy, Option.getD_some]
        refine ⟨?_, ?_, ?_⟩
        · rw [List.shortlex_iff_lex hlen, List.cons_lex_cons_iff, compare_lt_iff_lt]
          simp [hxy]
        · rw [List.cons_eq_cons, compare_eq_iff_eq]
          simp [hxy]
        · rw [List.shortlex_iff_lex hlen.symm, List.cons_lex_cons_iff, compare_gt_iff_gt]
          simp [Ne.symm hxy]

end Order

/-! ## The operators -/

theorem vec_of_contents (sound : Buffered m) (hxs : m.contents v = some xs) :
    ∃ f, m.vecs v = some f ∧ xs = elements m.heap f ∧ xs.length = f.size := by
  obtain ⟨f, hv, rfl⟩ := Option.map_eq_some_iff.mp hxs
  exact ⟨f, hv, rfl, (sound _ _ hv).elements_length⟩

section Operators

variable [LinearOrder T]

/-- The two operators on any two vectors that exist. -/
structure Compared (E : Element T) (equal : Nat → Nat → Code (Memory T) Bool)
    (threeWay : Nat → Nat → Code (Memory T) Ordering) (m : Memory T) : Prop where
  equal : ∀ v o xs ys, m.contents v = some xs → m.contents o = some ys →
    Ensures (equal v o) (fun same t => (same = true ↔ xs = ys) ∧ Kept m t) (Thrown E m) m
  threeWay : ∀ v o xs ys, m.contents v = some xs → m.contents o = some ys →
    Ensures (threeWay v o) (fun c t => InOrder xs ys c ∧ Kept m t) (Thrown E m) m

theorem equalSlots_spec (sound : Buffered m) (hv : m.vecs v = some f) (ho : m.vecs o = some g)
    (hsizes : f.size = g.size) :
    Ensures (equalSlots E f.data g.data 0 f.size)
      (fun same t => (same = true ↔ elements m.heap f = elements m.heap g) ∧ Kept m t) (Thrown E m) m := by
  have hf := (sound _ _ hv).elements_length
  have hg := (sound _ _ ho).elements_length
  refine (compareSlots_spec sound hv ho hsizes (fun x y => if x ≠ y then some false else none) true
    ?_).weaken ?_
  · intro k x y u _ _ _ kept
    exact ⟨rfl, kept⟩
  · intro same t hsame
    obtain ⟨rfl, hkept⟩ := hsame
    rw [firstVerdict_equal (by omega), decide_eq_true_iff]
    exact ⟨Iff.rfl, hkept⟩

theorem threeWaySlots_spec (sound : Buffered m) (hv : m.vecs v = some f) (ho : m.vecs o = some g)
    (hsizes : f.size = g.size) {rest : Nat → T × T → Code (Memory T) (Option Ordering)}
    (hrest : ∀ k x y u, k < f.size → (elements m.heap f)[k]? = some x →
      (elements m.heap g)[k]? = some y → Kept m u →
      Ensures (rest k (x, y)) (fun result w => result = verdictOf x y ∧ Kept m w) (Thrown E m) u) :
    Ensures (forReturning (fun k => loadBoth E f.data g.data k >>= rest k) .eq 0 f.size)
      (fun c t => InOrder (elements m.heap f) (elements m.heap g) c ∧ Kept m t) (Thrown E m) m := by
  have hf := (sound _ _ hv).elements_length
  have hg := (sound _ _ ho).elements_length
  refine (compareSlots_spec sound hv ho hsizes verdictOf .eq hrest).weaken ?_
  intro c t hc
  obtain ⟨rfl, hkept⟩ := hc
  exact ⟨firstVerdict_inOrder (by omega), hkept⟩

omit [LinearOrder T] in
/-- Vectors of different sizes do not hold the same elements. -/
theorem false_iff_of_lengths (hlen : xs.length ≠ ys.length) : false = true ↔ xs = ys := by
  constructor
  · intro h
    cases h
  · intro h
    exact absurd (congrArg List.length h) hlen

theorem compared_vectorBasic (sound : Buffered m) :
    Compared E (VectorBasic.equal E) (VectorBasic.threeWay E) m where
  equal := by
    intro v o xs ys hxs hys
    obtain ⟨f, hv, rfl, hf⟩ := vec_of_contents sound hxs
    obtain ⟨g, ho, rfl, hg⟩ := vec_of_contents sound hys
    rw [VectorBasic.equal, ensures_bind, ensures_members]
    refine ⟨f, hv, ?_⟩
    rw [ensures_bind, ensures_members]
    refine ⟨g, ho, ?_⟩
    by_cases hsizes : f.size = g.size
    · rw [if_neg (not_not.mpr hsizes)]
      exact equalSlots_spec sound hv ho hsizes
    · rw [if_pos hsizes]
      rw [← hf, ← hg] at hsizes
      exact ⟨false_iff_of_lengths hsizes, _, rfl⟩
  threeWay := by
    intro v o xs ys hxs hys
    obtain ⟨f, hv, rfl, hf⟩ := vec_of_contents sound hxs
    obtain ⟨g, ho, rfl, hg⟩ := vec_of_contents sound hys
    rw [VectorBasic.threeWay, ensures_bind, ensures_members]
    refine ⟨f, hv, ?_⟩
    rw [ensures_bind, ensures_members]
    refine ⟨g, ho, ?_⟩
    by_cases hsizes : f.size = g.size
    · rw [if_neg (not_not.mpr hsizes), ← hsizes]
      refine threeWaySlots_spec sound hv ho hsizes ?_
      intro k x y u _ _ _ kept
      refine ⟨?_, kept⟩
      simp only [verdictOf, ne_eq, compare_eq_iff_eq]
    · rw [if_pos hsizes, ← hf, ← hg]
      rw [← hf, ← hg] at hsizes
      exact ⟨inOrder_lengths hsizes, _, rfl⟩

theorem compared_vec1 (sound : Buffered m) : Compared E (Vec1.equal E) (Vec1.threeWay E) m where
  equal := by
    intro v o xs ys hxs hys
    obtain ⟨f, hv, rfl, hf⟩ := vec_of_contents sound hxs
    obtain ⟨g, ho, rfl, hg⟩ := vec_of_contents sound hys
    rw [Vec1.equal, ensures_bind, ensures_members]
    refine ⟨f, hv, ?_⟩
    rw [ensures_bind, ensures_members]
    refine ⟨g, ho, ?_⟩
    by_cases hsizes : f.size = g.size
    · rw [if_pos hsizes]
      exact equalSlots_spec sound hv ho hsizes
    · rw [if_neg hsizes]
      rw [← hf, ← hg] at hsizes
      exact ⟨false_iff_of_lengths hsizes, _, rfl⟩
  threeWay := by
    intro v o xs ys hxs hys
    obtain ⟨f, hv, rfl, hf⟩ := vec_of_contents sound hxs
    obtain ⟨g, ho, rfl, hg⟩ := vec_of_contents sound hys
    rw [Vec1.threeWay, ensures_bind, ensures_members]
    refine ⟨f, hv, ?_⟩
    rw [ensures_bind, ensures_members]
    refine ⟨g, ho, ?_⟩
    by_cases hsizes : f.size = g.size
    · rw [if_neg (not_not.mpr hsizes)]
      refine threeWaySlots_spec sound hv ho hsizes ?_
      intro k x y u hk hx hy kept
      by_cases hxy : x = y
      · simp only [hxy, ne_eq, not_true_eq_false, if_false]
        exact ⟨(verdictOf_self y).symm, kept⟩
      · simp only [hxy, ne_eq, not_false_eq_true, if_true]
        refine (loadBoth_again sound hv ho hk (hsizes ▸ hk) kept hx hy).andThen ?_
        intro both w hboth
        obtain ⟨rfl, hkept⟩ := hboth
        exact ⟨(verdictOf_of_ne hxy).symm, hkept⟩
    · rw [if_pos hsizes, ← hf, ← hg]
      rw [← hf, ← hg] at hsizes
      exact ⟨inOrder_lengths hsizes, _, rfl⟩

/-- In every state that a program over the vectors of vector_basic.cpp reaches, `==` and `<=>` on any
two of them read only their slots, change no vector, and say whether the elements are the same and
which are first in the shortlex order; they throw only where a comparison of elements does. The two
operators of vec_1.cpp, written differently, do the same on vectors whose buffers have `cap_` slots. -/
theorem vectors_in_shortlex_order (E : Element T) :
    (∀ ops m trace, (machine E (VectorBasic.myVec E)).Run Memory.start ops m trace →
      Compared E (VectorBasic.equal E) (VectorBasic.threeWay E) m) ∧
    ∀ m : Memory T, Buffered m → Compared E (VectorBasic.equal E) (VectorBasic.threeWay E) m ∧
      Compared E (Vec1.equal E) (Vec1.threeWay E) m := by
  constructor
  · intro ops m trace hrun
    exact compared_vectorBasic fun _ _ hv => (VectorRefinement.run_sound hrun).1.sound hv
  · intro m sound
    exact ⟨compared_vectorBasic sound, compared_vec1 sound⟩

end Operators

end CppCodes.Guarantees.VectorComparisons
