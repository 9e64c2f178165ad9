import CppCodes.Library.FailureAtomicity
import CppCodes.Source.StdVector.Refinement

/-!
# The `my_vec` of vec_1.cpp

Source: std_vector/vec_1.cpp:15-100. There is no cleanup where a copy throws, and
`reserve` moves whatever the element type.
-/

set_option autoImplicit false

namespace CppCodes.Source.StdVector.Vec1

open Library Library.Code

variable {T : Type} (E : Element T)

/-- `new T(il.size())` -/
def newObject (n : Nat) : Code (Memory T) Nat := do
  mayThrow E
  let a ← Code.read fun m => m.heap.next
  modify fun m => { m with heap := m.heap.alloc [E.ofSize n] }
  return a

/-- `my_vec(std::initializer_list<T> il)`: one object that is no array, built from the length. -/
def listConstruct (v : Nat) (il : List T) : Code (Memory T) Unit := do
  let a ← newObject E il.length
  copyList E (some a) il
  setMembers v (some ⟨some a, il.length, il.length, .object⟩)

/-- The copy both `my_vec(const my_vec& o)` and `operator=(const my_vec& o)` make. -/
def copyOf (o : Nat) : Code (Memory T) MyVec := do
  let g ← members o
  let newData ← newArray E g.cap
  forRange (copySlot E (some newData) g.data) 0 g.size
  return ⟨some newData, g.size, g.cap, .array⟩

def copyConstruct (v o : Nat) : Code (Memory T) Unit := do
  let f ← copyOf E o
  setMembers v (some f)

def copyAssign (v o : Nat) : Code (Memory T) Unit :=
  if v = o then pure () else do
    let g ← copyOf E o
    let f ← members v
    deleteArray f.form f.data
    setMembers v (some g)

def reserve (v newCap : Nat) : Code (Memory T) Unit := do
  let f ← members v
  if newCap < f.cap then pure () else
    let newData ← newArray E newCap
    forRange (moveSlot E (some newData) f.data) 0 f.size
    deleteArray f.form f.data
    setMembers v (some { f with data := some newData, cap := newCap, form := .array })

/-- `--size_`, which wraps at zero. -/
def popBack (v : Nat) : Code (Memory T) Unit := do
  let f ← members v
  setMembers v (some { f with size := sizeT (f.size + (2 ^ 64 - 1)) })

def myVec : Class T where
  listConstruct := listConstruct E
  copyConstruct := copyConstruct E
  copyAssign := copyAssign E
  reserve := reserve E
  popBack := popBack

variable {E} {m : Memory T} {v o n : Nat} {f g : MyVec}

theorem members_eq (hv : m.vecs v = some f) : members v m = .done f m := by
  have hread : Code.read (fun m : Memory T => m.vecs v) m = .done (m.vecs v) m := rfl
  rw [members, bind_of_done hread, hv]
  rfl

/-- What a vector is that was built from a list. -/
theorem members_listed {il : List T} {t : Memory T} (h : listConstruct E v il m = .done () t) :
    ∃ a, t.vecs v = some ⟨some a, il.length, il.length, .object⟩ := by
  rw [listConstruct] at h
  obtain ⟨a, u, -, hcopy⟩ := bind_done h
  obtain ⟨_, w, -, hset⟩ := bind_done hcopy
  cases hset
  exact ⟨a, Function.update_self ..⟩

/-- Whatever the length of the list, the vector built from it cannot be destroyed. -/
theorem destruct_listed {il : List T} {t : Memory T} (h : listConstruct E v il m = .done () t) :
    destruct v t = .fault := by
  obtain ⟨a, ha⟩ := members_listed h
  rw [destruct, bind_of_done (members_eq ha)]
  rfl

theorem not_inv_listed {il : List T} {t : Memory T} (h : listConstruct E v il m = .done () t) :
    ¬ Inv t := by
  obtain ⟨a, ha⟩ := members_listed h
  intro inv
  cases inv.array ha

theorem copyOf_spec (inv : Inv m) (ho : m.vecs o = some g) :
    Ensures (copyOf E o)
      (fun f t => f = ⟨some m.heap.next, g.size, g.cap, .array⟩ ∧ Filled m t g.cap (elements m.heap g))
      (fun t => Inv t ∧ E.Throws ∧ t.contents = m.contents) m := by
  have hsound := inv.sound ho
  have hcap := hsound.cap_lt
  rw [copyOf, ensures_bind, ensures_members]
  refine ⟨g, ho, ?_⟩
  rw [ensures_bind]
  refine ensures_newArray ?_ ?_
  · intro _
    refine Ensures.bind (copyElements inv ho hsound.size_le _) ?_ ?_
    · intro _ t ht
      exact ⟨rfl, ht⟩
    · intro t hparts
      obtain ⟨hthrows, hvecs, -, hframe⟩ := hparts
      obtain ⟨hinv, hcontents⟩ := inv.discard hvecs hframe
      exact ⟨hinv, hthrows, hcontents⟩
  · intro hcause
    have hkeep := inv.keep (m.calls + 1) fun _ _ _ _ _ => rfl
    exact ⟨hkeep.1, hcause.resolve_right (by omega), hkeep.2⟩

theorem reserve_spec (inv : Inv m) (hv : m.vecs v = some f) :
    Ensures (reserve E v n)
      (fun _ t => Inv t ∧ t.contents = m.contents ∧
        ∃ g, t.vecs v = some g ∧ g.size = f.size ∧ f.cap ≤ g.cap ∧ n ≤ g.cap)
      (fun t => Inv t ∧ (E.Throws ∨ 2 ^ 63 ≤ n) ∧
        (E.nothrowMoveAssignable = true → t.contents = m.contents)) m := by
  have hsize := (inv.sound hv).size_le
  rw [reserve, ensures_bind, ensures_members]
  refine ⟨f, hv, ?_⟩
  by_cases hn : n < f.cap
  · rw [if_pos hn]
    exact ⟨inv, rfl, f, hv, rfl, Nat.le_refl _, Nat.le_of_lt hn⟩
  · have hcap : f.cap ≤ n := Nat.not_lt.mp hn
    rw [if_neg hn, ensures_bind]
    refine ensures_newArray ?_ ?_
    · intro hlt
      refine Ensures.bind (moveElements inv hv (by omega) _) ?_ ?_
      · intro _ t hboth
        obtain ⟨hdrained, hnew⟩ := hboth
        refine (reallocate_spec inv hv (by omega) hlt hdrained hnew).mono ?_ fun _ h => h
        intro _ u hparts
        obtain ⟨hu, hcontents, hmembers⟩ := hparts
        exact ⟨hu, hcontents, _, hmembers, rfl, hcap, Nat.le_refl _⟩
      · -- the elements moved so far are lost with the new block
        intro t hparts
        obtain ⟨hmove, hthrows, -, hdrained⟩ := hparts
        refine ⟨hdrained.inv inv hv, Or.inl hthrows, ?_⟩
        rw [hmove]
        exact nofun
    · intro hcause
      have hkeep := inv.keep (m.calls + 1) fun _ _ _ _ _ => rfl
      exact ⟨hkeep.1, hcause, fun _ => hkeep.2⟩

/-- The class is correct as long as no vector is built from a list. -/
theorem myVec_correct (E : Element T) :
    (myVec E).Correct E (fun _ => False) (E.nothrowMoveAssignable = true) where
  listConstruct _ _ hil := hil.elim
  copyConstruct {m v o g} inv _ ho := by
    have hsound := inv.sound ho
    rw [contents_eq ho]
    exact constructFilled_spec inv hsound.elements_length hsound.size_le hsound.cap_lt
      (copyOf_spec inv ho)
  copyAssign {m v o f g} inv hv ho := by
    change Ensures (copyAssign E v o) _ _ m
    unfold copyAssign
    by_cases hvo : v = o
    · rw [if_pos hvo]
      subst hvo
      exact ⟨inv, (Function.update_eq_self v m.contents).symm⟩
    · have hsound := inv.sound ho
      rw [if_neg hvo, contents_eq ho]
      exact assignFilled_spec inv hv hsound.elements_length hsound.size_le hsound.cap_lt
        (copyOf_spec inv ho)
  reserve inv hv := reserve_spec inv hv
  popBack {m v f} inv hv hpos := by
    change Ensures (popBack v) _ _ m
    have hsound := inv.sound hv
    have hsize := hsound.size_le
    have hcap := hsound.cap_lt
    have hlast : sizeT (f.size + (2 ^ 64 - 1)) = f.size - 1 := by
      unfold sizeT
      omega
    rw [popBack, ensures_bind, ensures_members]
    refine ⟨f, hv, ?_⟩
    rw [hlast]
    exact shrink_spec inv hv

end CppCodes.Source.StdVector.Vec1
