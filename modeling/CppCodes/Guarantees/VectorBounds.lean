import CppCodes.Source.StdVector.Vec1
import CppCodes.Guarantees.VectorRefinement

/-!
# Buffers of the recorded size

The `my_vec` of vec_1.cpp keeps its buffers at exactly `cap_` slots through every
member but one: a vector built from a list gets one object, whatever the length of the
list, and `delete[]` is not for that object.
-/

set_option autoImplicit false

namespace CppCodes.Guarantees.VectorBounds

open Library Source.StdVector Source.StdVector.Vec1 VectorRefinement

variable {T : Type}

/-- The statement builds no vector from a list. -/
def NotListed (_ : Memory T) : Op T → Prop
  | .listConstruct _ _ => False
  | _ => True

instance (m : Memory T) (op : Op T) : Decidable (NotListed m op) := by
  cases op <;> unfold NotListed <;> infer_instance

/-- Where no vector is built from a list, no program touches a slot outside its buffer and
every buffer is an array of exactly `cap_` slots, whatever throws. Once one has been built from
a list, of whatever length, the invariant is broken and the vector cannot be destroyed. -/
theorem vec_1_buffers_sound {E : Element T} {ops : List (Op T)} {m : Memory T}
    {trace : List (Event T)} (h : (machine E (myVec E)).Run Memory.start ops m trace)
    (lists : (machine E (myVec E)).StepsMeet NotListed Memory.start ops) :
    (Inv m ∧ Event.fault ∉ trace) ∧
      ∀ v il t, listConstruct E v il m = .done () t → ¬ Inv t ∧ destruct v t = .fault := by
  refine ⟨?_, fun v il t hlisted => ⟨not_inv_listed hlisted, destruct_listed hlisted⟩⟩
  refine h.invariant_of_steps (I := fun m trace => Inv m ∧ Event.fault ∉ trace)
    ⟨start_inv, List.not_mem_nil⟩ ?_ lists
  intro m trace op t seen hboth hlist hstep
  obtain ⟨inv, hfault⟩ := hboth
  obtain ⟨hinv, heffect⟩ := step_effect (myVec_correct E) inv
    (fun v il hop => by subst hop; exact hlist) hstep
  exact ⟨hinv, not_mem_of_effect hfault heffect⟩

/-- Growth, a copy of the grown vector, and an assignment over it. -/
def growAndCopy : List (Op Int) :=
  [.construct 0, .pushBack 0 (.temporary 5), .pushBack 0 (.slot 0 0), .copyConstruct 1 0,
    .reserve 1 2, .popBack 0, .copyAssign 0 1, .index 0 1, .destruct 1]

theorem vec_1_buffers_sound_copied :
    ∃ m, (machine int (myVec int)).Run Memory.start growAndCopy m [.value 5] ∧ Inv m ∧
      Event.fault ∉ [Event.value (5 : Int)] := by
  obtain ⟨m, hrun⟩ : ∃ m, (machine int (myVec int)).Run Memory.start growAndCopy m [.value 5] :=
    Machine.run_of_trace (by decide +kernel)
  exact ⟨m, hrun, (vec_1_buffers_sound hrun (by decide +kernel)).1⟩

/-- The second element of a list of three is written outside the one slot there is. -/
theorem list_of_three_faults :
    ¬ ∀ ops m trace, (machine int (myVec int)).Run Memory.start ops m trace →
      Inv m ∧ Event.fault ∉ trace := by
  intro h
  exact (h [.listConstruct 0 [1, 2, 3]] _ [.fault] rfl).2 List.mem_cons_self

/-- The one element of a list of one fits, but `delete[]` is not for it. -/
example : ((machine int (myVec int)).exec Memory.start [.listConstruct 0 [5], .index 0 0,
    .destruct 0]).map Prod.snd = some [.value 5, .fault] := rfl

end CppCodes.Guarantees.VectorBounds
