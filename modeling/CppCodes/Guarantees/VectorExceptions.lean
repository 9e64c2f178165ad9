import CppCodes.Guarantees.VectorRefinement

/-!
# A failed call leaves the vector as it was

The `my_vec` of vector_basic.cpp gives the strong exception guarantee wherever an
exception comes from: the allocation, the transfer of an element, the temporary or the
assignment into the new slot. What the constructor of the new element has taken from an
argument of `emplace_back` is lost with it, so no argument may let it take from an element of
the vector itself, or from a part of one.
-/

set_option autoImplicit false

namespace CppCodes.Guarantees.VectorExceptions

open Library Library.Code Source.StdVector Source.StdVector.VectorBasic VectorRefinement

variable {T : Type}

/-- The constructor changes an element of `v`: the argument leads to the element or to a part
of it, by an rvalue or other non-const reference. -/
def takesFrom (v : Nat) (a : Forwarded T) : Bool := a.left.isSome && a.v == v

/-- The vectors that must be the same after the statement has thrown: the one it was
called on, and the source of a copy. -/
def kept : Op T → List Nat
  | .reserve v _ | .pushBack v _ => [v]
  | .emplaceBack v args _ => if args.any (takesFrom v) then [] else [v]
  | .copyConstruct _ o => [o]
  | .copyAssign v o => [v, o]
  | _ => []

variable {E : Element T} {m t : Memory T}

theorem used_of_not_takesFrom {v : Nat} {a : Forwarded T} (h : takesFrom v a = false)
    (r : ListStore T) : a.used r v = r v := by
  unfold Forwarded.used
  cases hleft : a.left with
  | none => rfl
  | some left =>
    have hne : v ≠ a.v := by
      intro hsame
      simp [takesFrom, hleft, hsame] at h
    exact Function.update_of_ne hne _ _

theorem foldl_used_of_not_takesFrom {v : Nat} {args : List (Forwarded T)}
    (h : ∀ a ∈ args, takesFrom v a = false) (r : ListStore T) :
    args.foldl Forwarded.used r v = r v := by
  induction args generalizing r with
  | nil => rfl
  | cons a args ih =>
    rw [List.foldl_cons, ih fun b hb => h b (List.mem_cons_of_mem a hb)]
    exact used_of_not_takesFrom (h a List.mem_cons_self) r

/-- A call of `emplace_back` that throws, none of whose arguments takes from the vector. -/
theorem emplaceBack_keeps (safe : E.nothrowMoveAssignable = true ∨ E.copyAssignable = true)
    (inv : Inv m) {v : Nat} {args : List (Forwarded T)} {make : List T → T}
    (hv : ∃ f, m.vecs v = some f) (hvalid : ∀ a ∈ args, below m.sizes a.v a.i = true)
    (htakes : ∀ a ∈ args, takesFrom v a = false) :
    Ensures (emplaceBack E (myVec E).reserve v args make) (fun _ _ => True)
      (fun t => Inv t ∧ t.contents v = m.contents v) m := by
  have hsame : ∀ front, front <+: args →
      front.foldl Forwarded.used m.contents v = m.contents v := fun front hfront =>
    foldl_used_of_not_takesFrom (fun a ha => htakes a (hfront.subset ha)) m.contents
  have hconstruct := (constructFrom_spec (E := E) inv make hvalid).mono (fun _ _ h => h)
    (R := fun t => Inv t ∧ E.Throws ∧ t.contents v = m.contents v) ?_
  · refine (push_spec (myVec_correct E) (K := fun r => r v = m.contents v) hv
      (hsame args List.prefix_rfl) hconstruct).mono (fun _ _ _ => trivial) ?_
    intro t ht
    exact ⟨ht.1, ht.2.2 safe⟩
  · intro t ht
    obtain ⟨hinv, hthrows, front, hfront, hcontents⟩ := ht
    refine ⟨hinv, hthrows, ?_⟩
    rw [hcontents]
    exact hsame front hfront

/-- Where nothing has changed, nothing that must be the same has. -/
theorem keeps_of_same (op : Op T) (hinv : Inv t) (hsame : t.contents = m.contents) :
    Inv t ∧ ∀ v ∈ kept op, t.contents v = m.contents v :=
  ⟨hinv, fun v _ => congrFun hsame v⟩

/-- Every member either keeps its promise when it throws, or has made none. -/
theorem perform_keeps (safe : E.nothrowMoveAssignable = true ∨ E.copyAssignable = true)
    (inv : Inv m) {op : Op T} (hop : op.contract m.sizes = true) (hkept : kept op ≠ []) :
    Ensures (op.perform E (myVec E)) (fun _ _ => True)
      (fun t => Inv t ∧ ∀ v ∈ kept op, t.contents v = m.contents v) m := by
  have correct := myVec_correct E
  cases op with
  | reserve v n =>
    obtain ⟨f, hv⟩ := sizes_isSome hop
    refine (correct.reserve inv hv).bind (fun _ _ _ => trivial) ?_
    intro t ht
    exact keeps_of_same _ ht.1 (ht.2.2 safe)
  | pushBack v a =>
    obtain ⟨hsome, harg⟩ := Bool.and_eq_true_iff.mp hop
    refine (push_spec correct (K := (· = m.contents)) (sizes_isSome hsome) rfl
      (copy_spec inv harg)).bind (fun _ _ _ => trivial) ?_
    intro t ht
    exact keeps_of_same _ ht.1 (ht.2.2 safe)
  | emplaceBack v args make =>
    obtain ⟨hsome, hargs⟩ := Bool.and_eq_true_iff.mp hop
    cases htakes : args.any (takesFrom v) with
    | true => simp [kept, htakes] at hkept
    | false =>
      have hreads : ∀ a ∈ args, takesFrom v a = false := fun a ha =>
        Bool.eq_false_iff.mpr (List.any_eq_false.mp htakes a ha)
      refine (emplaceBack_keeps safe inv (sizes_isSome hsome) (List.all_eq_true.mp hargs)
        hreads).bind (fun _ _ _ => trivial) ?_
      intro t ht
      refine ⟨ht.1, ?_⟩
      intro w hw
      obtain rfl : w = v := by simpa [kept, htakes] using hw
      exact ht.2
  | copyConstruct v o =>
    obtain ⟨hnone, hsome⟩ := Bool.and_eq_true_iff.mp hop
    obtain ⟨g, ho⟩ := sizes_isSome hsome
    refine (correct.copyConstruct inv (sizes_isNone hnone) ho).bind (fun _ _ _ => trivial) ?_
    intro t ht
    exact keeps_of_same _ ht.1 ht.2.2
  | copyAssign v o =>
    obtain ⟨hv, ho⟩ := Bool.and_eq_true_iff.mp hop
    obtain ⟨f, hv⟩ := sizes_isSome hv
    obtain ⟨g, ho⟩ := sizes_isSome ho
    refine (correct.copyAssign inv hv ho).bind (fun _ _ _ => trivial) ?_
    intro t ht
    exact keeps_of_same _ ht.1 ht.2.2
  | _ => exact absurd rfl hkept

/-- In every program, whatever element calls throw: when one of these members throws, the
invariant holds, and the vector it was called on (and the source of a copy) has the size
and the elements it had before the call. -/
theorem strong_guarantee {E : Element T}
    (safe : E.nothrowMoveAssignable = true ∨ E.copyAssignable = true) {ops : List (Op T)}
    {m : Memory T} {trace : List (Event T)}
    (h : (machine E (myVec E)).Run Memory.start ops m trace) {op : Op T}
    (hop : op.contract m.sizes = true) (hkept : kept op ≠ []) {t : Memory T}
    (hthrew : op.perform E (myVec E) m = .threw t) :
    Inv t ∧ ∀ v ∈ kept op, t.sizes v = m.sizes v ∧ t.contents v = m.contents v := by
  have inv := (run_sound h).1
  have hspec := perform_keeps safe inv hop hkept
  unfold Ensures at hspec
  rw [hthrew] at hspec
  obtain ⟨hinv, hsame⟩ := hspec
  refine ⟨hinv, ?_⟩
  intro v hv
  rw [hinv.sizes_eq, inv.sizes_eq]
  dsimp only
  rw [hsame v hv]
  exact ⟨rfl, rfl⟩

/-- Numbers of which a move leaves 0, where the call number `k` throws. -/
def failing (k : Nat) : Element Int := { int with movedFrom := fun _ => 0, throwsAt := (· == k) }

/-- A vector with the one element 7 and no room for another. -/
def oneElement : List (Op Int) := [.construct 0, .pushBack 0 (.temporary 7)]

/-- The memory then, after two calls that may throw. -/
def full : Memory Int := ((machine (failing 2) (myVec (failing 2))).exec Memory.start oneElement).get rfl |>.1

theorem full_run (k : Nat) :
    (machine (failing (k + 2)) (myVec (failing (k + 2)))).Run Memory.start oneElement full [] := rfl

/-- The second `push_back` has no memory to grow into. -/
theorem strong_guarantee_no_memory :
    ∃ t, (Op.pushBack 0 (.temporary 8)).perform (failing 3) (myVec (failing 3)) full = .threw t ∧
      Inv t ∧ t.contents 0 = some [7] := by
  obtain ⟨t, hthrew⟩ : ∃ t, (Op.pushBack 0 (.temporary 8)).perform (failing 3) (myVec (failing 3))
      full = .threw t := ⟨_, rfl⟩
  have hkept : 0 ∈ kept (Op.pushBack 0 (.temporary (8 : Int))) := List.mem_cons_self
  obtain ⟨hinv, hsame⟩ :=
    strong_guarantee (Or.inl rfl) (full_run 1) rfl (List.ne_nil_of_mem hkept) hthrew
  exact ⟨t, hthrew, hinv, (hsame 0 hkept).2⟩

/-- `v.emplace_back(std::move(v[0]))`: the element is gone when the allocation throws. -/
theorem emplaced_element_lost :
    ¬ ∀ ops m trace, (machine (failing 4) (myVec (failing 4))).Run Memory.start ops m trace →
      ∀ v args make t, (Op.emplaceBack v args make).contract m.sizes = true →
        (Op.emplaceBack v args make).perform (failing 4) (myVec (failing 4)) m = .threw t →
        t.contents v = m.contents v := by
  intro h
  obtain ⟨t, hthrew, hlost⟩ : ∃ t, (Op.emplaceBack 0 [⟨0, 0, some fun _ => 0⟩] List.sum).perform
      (failing 4) (myVec (failing 4)) full = .threw t ∧ t.contents 0 = some [0] := ⟨_, rfl, rfl⟩
  have hsame := h oneElement full [] (full_run 2) 0 _ _ t rfl hthrew
  rw [hlost] at hsame
  exact absurd hsame (by decide)

end CppCodes.Guarantees.VectorExceptions
