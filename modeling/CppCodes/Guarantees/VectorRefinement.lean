import CppCodes.Source.StdVector.VectorBasic

/-!
# A vector is a list

Every program over the `my_vec` of vector_basic.cpp does to its vectors what the
statements say about lists, through every growth, copy and move. Each buffer has
exactly `cap_` slots and no slot outside a buffer is touched.
-/

set_option autoImplicit false

namespace CppCodes.Guarantees.VectorRefinement

open Library Source.StdVector Source.StdVector.VectorBasic

variable {T : Type} (E : Element T)

/-- No vectors yet. -/
def noLists : ListStore T := fun _ => none

/-- The array the statement asks for has fewer than `2 ^ 63` slots. -/
def Fits (m : Memory T) (op : Op T) : Prop := op.demand m < 2 ^ 63

instance : DecidableRel (Fits (T := T)) := fun _ _ => Nat.decLt _ _

variable {E} {ops : List (Op T)} {m : Memory T} {trace : List (Event T)}

theorem run_sound (h : (machine E (myVec E)).Run Memory.start ops m trace) :
    Inv m ∧ Event.fault ∉ trace := by
  refine h.invariant (I := fun m trace => Inv m ∧ Event.fault ∉ trace)
    ⟨start_inv, List.not_mem_nil⟩ ?_
  intro m trace op t seen hboth hstep
  obtain ⟨inv, hfault⟩ := hboth
  obtain ⟨hinv, heffect⟩ := step_effect (myVec_correct E) inv (fun _ _ _ => trivial) hstep
  exact ⟨hinv, not_mem_of_effect hfault heffect⟩

theorem run_reference (h : (machine E (myVec E)).Run Memory.start ops m trace)
    (hthrew : Event.threw ∉ trace) : (reference E).Run noLists ops m.contents trace := by
  refine h.induction
    (P := fun ops m trace => Event.threw ∉ trace → (reference E).Run noLists ops m.contents trace)
    (fun _ => Machine.Run.nil _) ?_ hthrew
  intro ops m trace op t seen hrun ih hstep hthrew
  rw [List.mem_append, not_or] at hthrew
  obtain ⟨-, heffect⟩ :=
    step_effect (myVec_correct E) (run_sound hrun).1 (fun _ _ _ => trivial) hstep
  rcases heffect with hreference | ⟨rfl, -⟩
  · exact Machine.run_snoc_iff.mpr ⟨_, _, _, ih hthrew.1, hreference, rfl⟩
  · exact absurd List.mem_cons_self hthrew.2

/-- Where nothing throws, whatever the lists can do the vectors do. -/
theorem reference_run (calm : ¬ E.Throws) {r : ListStore T}
    (h : (reference E).Run noLists ops r trace)
    (fits : (machine E (myVec E)).StepsMeet Fits Memory.start ops) :
    ∃ m, (machine E (myVec E)).Run Memory.start ops m trace ∧ m.contents = r := by
  refine h.induction
    (P := fun ops r trace => (machine E (myVec E)).StepsMeet Fits Memory.start ops →
      ∃ m, (machine E (myVec E)).Run Memory.start ops m trace ∧ m.contents = r)
    (fun _ => ⟨_, Machine.Run.nil _, rfl⟩) ?_ fits
  intro ops r trace op r' seen _ ih hstep fits
  have hbefore : (machine E (myVec E)).StepsMeet Fits Memory.start ops :=
    Machine.StepsMeet.of_append fits
  obtain ⟨m, hrun, rfl⟩ := ih hbefore
  have hfits : Fits m op := ((Machine.stepsMeet_snoc_iff hrun).mp fits).2
  have inv := (run_sound hrun).1
  have hop : op.contract m.sizes = true := inv.sizes_eq ▸ reference_contract hstep
  obtain ⟨t, seen', hmachine⟩ := exists_step (E := E) (C := myVec E) hop
  obtain ⟨-, hreference | ⟨-, hcause⟩⟩ :=
    step_effect (myVec_correct E) inv (fun _ _ _ => trivial) hmachine
  · rw [hstep] at hreference
    cases hreference
    exact ⟨t, Machine.run_snoc_iff.mpr ⟨_, _, _, hrun, hmachine, rfl⟩, rfl⟩
  · exact absurd (hcause.resolve_left calm) (Nat.not_le.mpr hfits)

/-- **A vector refines a list.** In every program over any number of vectors, as long as
the caller keeps to the contract of each member, every buffer has exactly `cap_` slots,
no vector has more elements than slots and nothing outside a buffer is touched. Until an
exception is thrown the elements of each vector, and every value read, are those of the
lists; and where no element operation throws and capacities stay below `2 ^ 63`, every
program over lists is carried out to its end. -/
theorem my_vec_refines_list (E : Element T) :
    (∀ ops m trace, (machine E (myVec E)).Run Memory.start ops m trace →
      Inv m ∧ (∀ v f, m.vecs v = some f → f.cap = 0 → f.size = 0) ∧ Event.fault ∉ trace ∧
        (Event.threw ∉ trace → (reference E).Run noLists ops m.contents trace)) ∧
      ∀ ops r trace, ¬ E.Throws → (reference E).Run noLists ops r trace →
        (machine E (myVec E)).StepsMeet Fits Memory.start ops →
        ∃ m, (machine E (myVec E)).Run Memory.start ops m trace ∧ m.contents = r := by
  refine ⟨?_, fun ops r trace calm h fits => reference_run calm h fits⟩
  intro ops m trace h
  obtain ⟨inv, hfault⟩ := run_sound h
  refine ⟨inv, ?_, hfault, run_reference h⟩
  intro v f hv hcap
  have hsize := (inv.sound hv).size_le
  omega

/-- `int`, whose operations never throw. -/
def int : Element Int where
  init := 0
  ofSize n := n
  movedFrom x := x
  nothrowMoveAssignable := true
  copyAssignable := true
  throwsAt _ := false

/-- A vector grows while one of its own elements is pushed, and is then moved from. -/
def pushOwnElement : List (Op Int) :=
  [.construct 0, .pushBack 0 (.temporary 7), .pushBack 0 (.slot 0 0), .moveConstruct 1 0,
    .index 1 1]

theorem my_vec_refines_list_own_element :
    ∃ m, (machine int (myVec int)).Run Memory.start pushOwnElement m [.value 7] ∧
      m.contents 0 = some [] ∧ m.contents 1 = some [7, 7] := by
  have calm : ¬ int.Throws := fun ⟨_, h⟩ => Bool.noConfusion h
  obtain ⟨m, hrun, hcontents⟩ :=
    (my_vec_refines_list int).2 pushOwnElement _ [.value 7] calm rfl (by decide +kernel)
  refine ⟨m, hrun, ?_, ?_⟩
  · rw [hcontents]
    rfl
  · rw [hcontents]
    rfl

end CppCodes.Guarantees.VectorRefinement
