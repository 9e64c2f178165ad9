import CppCodes.Source.StdVector.Refinement

/-!
# The `my_vec` of vector_basic.cpp

Source: std_vector/vector_basic.cpp:40-156.
-/

set_option autoImplicit false

namespace CppCodes.Source.StdVector.VectorBasic

open Library Library.Code

variable {T : Type} (E : Element T)

/-- `my_vec(std::initializer_list<T> il)` -/
def listConstruct (v : Nat) (il : List T) : Code (Memory T) Unit := do
  let a ← newArray E il.length
  copyList E (some a) il
  setMembers v (some ⟨some a, il.length, il.length, .array⟩)

/-- The copy both `my_vec(const my_vec& o)` and `operator=(const my_vec& o)` make. -/
def copyOf (o : Nat) : Code (Memory T) MyVec := do
  let g ← members o
  let newData ← newArray E g.cap
  rethrowing (forRange (copySlot E (some newData) g.data) 0 g.size) (deleteArray .array (some newData))
  return ⟨some newData, g.size, g.cap, .array⟩

def copyConstruct (v o : Nat) : Code (Memory T) Unit := do
  let f ← copyOf E o
  setMembers v (some f)

def copyAssign (v o : Nat) : Code (Memory T) Unit :=
  if v = o then pure () else do
    let g ← copyOf E o
    let f ← members v
    deleteArray f.form f.data
    setMembers v (some g)

/-- The assignment `reserve` uses for one element. -/
def transferSlot (dst src : Option Nat) (i : Nat) : Code (Memory T) Unit :=
  if E.nothrowMoveAssignable || !E.copyAssignable then moveSlot E dst src i
  else copySlot E dst src i

def reserve (v newCap : Nat) : Code (Memory T) Unit := do
  let f ← members v
  if newCap ≤ f.cap then pure () else
    let newData ← newArray E newCap
    rethrowing (forRange (transferSlot E (some newData) f.data) 0 f.size)
      (deleteArray .array (some newData))
    deleteArray f.form f.data
    setMembers v (some { f with data := some newData, cap := newCap, form := .array })

/-- The assertion stops the program on an empty vector. -/
def popBack (v : Nat) : Code (Memory T) Unit := do
  let f ← members v
  if 0 < f.size then setMembers v (some { f with size := f.size - 1 }) else fail

def myVec : Class T where
  listConstruct := listConstruct E
  copyConstruct := copyConstruct E
  copyAssign := copyAssign E
  reserve := reserve E
  popBack := popBack

variable {E} {m : Memory T} {R : Memory T → Prop} {v o n : Nat} {f g : MyVec}

/-- The handler frees the new block: no vector is affected. -/
theorem cleanup_spec (inv : Inv m) {t : Memory T} (hvecs : t.vecs = m.vecs)
    (hframe : ∀ a < m.heap.next, t.heap.block a = m.heap.block a)
    (hblock : ∃ slots, t.heap.block m.heap.next = some slots) :
    Ensures (deleteArray .array (some m.heap.next))
      (fun _ u => Inv u ∧ u.contents = m.contents) R t := by
  obtain ⟨slots, hblock⟩ := hblock
  refine ensures_deleteArray (p := some m.heap.next) rfl hblock nofun ?_
  intro a ha
  cases ha
  refine inv.discard (t := { t with heap := t.heap.remove m.heap.next }) hvecs ?_
  intro b hb
  exact (BlockHeap.block_remove_of_ne (Nat.ne_of_lt hb)).trans (hframe b hb)

theorem copyOf_spec (inv : Inv m) (ho : m.vecs o = some g) :
    Ensures (copyOf E o)
      (fun f t => f = ⟨some m.heap.next, g.size, g.cap, .array⟩ ∧ Filled m t g.cap (elements m.heap g))
      (fun t => Inv t ∧ E.Throws ∧ t.contents = m.contents) m := by
  have hcap := (inv.sound ho).cap_lt
  rw [copyOf, ensures_bind, ensures_members]
  refine ⟨g, ho, ?_⟩
  rw [ensures_bind]
  refine ensures_newArray ?_ ?_
  · intro _
    refine (Ensures.rethrowing (copyElements inv ho (inv.sound ho).size_le _) ?_).andThen ?_
    · intro t hparts
      obtain ⟨hthrows, hvecs, hblock, hframe⟩ := hparts
      exact (cleanup_spec inv hvecs hframe hblock).mono (fun _ u h => ⟨h.1, hthrows, h.2⟩) fun _ h => h
    · intro _ t ht
      exact ⟨rfl, ht⟩
  · intro hcause
    have hkeep := inv.keep (m.calls + 1) fun _ _ _ _ _ => rfl
    exact ⟨hkeep.1, hcause.resolve_right (by omega), hkeep.2⟩

theorem listConstruct_spec {il : List T} (inv : Inv m) :
    Ensures (listConstruct E v il)
      (fun _ t => Inv t ∧ t.contents = Function.update m.contents v (some il))
      (fun t => Inv t ∧ (E.Throws ∨ 2 ^ 63 ≤ il.length) ∧ t.contents = m.contents) m := by
  rw [listConstruct, ensures_bind]
  refine ensures_newArray ?_ ?_
  · intro hlt
    exact (constructListed_spec inv (List.length_replicate ..) hlt _).mono (fun _ _ h => h)
      fun t h => ⟨h.1, Or.inl h.2.1, h.2.2⟩
  · intro hcause
    have hkeep := inv.keep (m.calls + 1) fun _ _ _ _ _ => rfl
    exact ⟨hkeep.1, hcause, hkeep.2⟩

theorem copyConstruct_spec (inv : Inv m) (ho : m.vecs o = some g) :
    Ensures (copyConstruct E v o)
      (fun _ t => Inv t ∧ t.contents = Function.update m.contents v (m.contents o))
      (fun t => Inv t ∧ E.Throws ∧ t.contents = m.contents) m := by
  have hsound := inv.sound ho
  rw [contents_eq ho]
  exact constructFilled_spec inv hsound.elements_length hsound.size_le hsound.cap_lt
    (copyOf_spec inv ho)

theorem copyAssign_spec (inv : Inv m) (hv : m.vecs v = some f) (ho : m.vecs o = some g) :
    Ensures (copyAssign E v o)
      (fun _ t => Inv t ∧ t.contents = Function.update m.contents v (m.contents o))
      (fun t => Inv t ∧ E.Throws ∧ t.contents = m.contents) m := by
  unfold copyAssign
  by_cases hvo : v = o
  · rw [if_pos hvo]
    subst hvo
    exact ⟨inv, (Function.update_eq_self v m.contents).symm⟩
  · have hsound := inv.sound ho
    rw [if_neg hvo, contents_eq ho]
    exact assignFilled_spec inv hv hsound.elements_length hsound.size_le hsound.cap_lt
      (copyOf_spec inv ho)

/-- Moving is chosen where it cannot throw, or where nothing else compiles. -/
theorem transfer_spec (inv : Inv m) (hv : m.vecs v = some f) (hn : f.size ≤ n) (calls : Nat) :
    Ensures (forRange (transferSlot E (some m.heap.next) f.data) 0 f.size)
      (fun _ t => Drained m t f ∧ ∃ slots, t.heap.block m.heap.next = some slots ∧
        slots.length = n ∧ slots.take f.size = elements m.heap f)
      (fun t => E.Throws ∧ (∃ slots, t.heap.block m.heap.next = some slots) ∧ Drained m t f ∧
        (E.nothrowMoveAssignable = true ∨ E.copyAssignable = true →
          ∀ a < m.heap.next, t.heap.block a = m.heap.block a))
      ⟨m.heap.alloc (List.replicate n E.init), m.vecs, calls⟩ := by
  by_cases hmove : (E.nothrowMoveAssignable || !E.copyAssignable) = true
  · have hslot : transferSlot E (some m.heap.next) f.data = moveSlot E (some m.heap.next) f.data :=
      funext fun i => if_pos hmove
    rw [hslot]
    refine (moveElements inv hv hn calls).mono (fun _ _ h => h) ?_
    intro t hparts
    obtain ⟨hnothrow, hthrows, hblock, hdrained⟩ := hparts
    refine ⟨hthrows, hblock, hdrained, ?_⟩
    intro hsafe
    simp [hnothrow] at hmove hsafe
    rw [hmove] at hsafe
    cases hsafe
  · have hslot : transferSlot E (some m.heap.next) f.data = copySlot E (some m.heap.next) f.data :=
      funext fun i => if_neg hmove
    rw [hslot]
    refine (copyElements inv hv hn calls).mono ?_ ?_
    · intro _ t filled
      have hblock := filled.block
      rw [(inv.sound hv).elements_length] at hblock
      exact ⟨filled.drained inv hv, hblock⟩
    · intro t hparts
      obtain ⟨hthrows, hvecs, hblock, hframe⟩ := hparts
      obtain ⟨slots, hslots, hlen⟩ := (inv.sound hv).buffer
      exact ⟨hthrows, hblock, ⟨hvecs, fun a ha _ => hframe a ha, slots,
        (slotsAt_congr fun a ha => hframe a (inv.lt_next hv ha)).trans hslots, hlen⟩,
        fun _ => hframe⟩

theorem reserve_spec (inv : Inv m) (hv : m.vecs v = some f) :
    Ensures (reserve E v n)
      (fun _ t => Inv t ∧ t.contents = m.contents ∧
        ∃ g, t.vecs v = some g ∧ g.size = f.size ∧ f.cap ≤ g.cap ∧ n ≤ g.cap)
      (fun t => Inv t ∧ (E.Throws ∨ 2 ^ 63 ≤ n) ∧
        (E.nothrowMoveAssignable = true ∨ E.copyAssignable = true → t.contents = m.contents)) m := by
  have hsize := (inv.sound hv).size_le
  rw [reserve, ensures_bind, ensures_members]
  refine ⟨f, hv, ?_⟩
  by_cases hn : n ≤ f.cap
  · rw [if_pos hn]
    exact ⟨inv, rfl, f, hv, rfl, Nat.le_refl _, hn⟩
  · rw [if_neg hn, ensures_bind]
    refine ensures_newArray ?_ ?_
    · intro hlt
      refine Ensures.bind (Ensures.rethrowing (transfer_spec inv hv (by omega) _) ?_) ?_
        fun _ h => h
      · intro t hparts
        obtain ⟨hthrows, ⟨slots, hblock⟩, hdrained, hsafe⟩ := hparts
        have hremove : ∀ a < m.heap.next, (t.heap.remove m.heap.next).block a = t.heap.block a :=
          fun a ha => BlockHeap.block_remove_of_ne (Nat.ne_of_lt ha)
        refine ensures_deleteArray (p := some m.heap.next) rfl hblock nofun ?_
        intro a ha
        cases ha
        refine ⟨(hdrained.congr inv hv hremove).inv inv hv, Or.inl hthrows, fun h => ?_⟩
        exact (inv.discard (t := { t with heap := t.heap.remove m.heap.next }) hdrained.vecs
          fun a ha => (hremove a ha).trans (hsafe h a ha)).2
      · intro _ t hboth
        obtain ⟨hdrained, hnew⟩ := hboth
        refine (reallocate_spec inv hv (by omega) hlt hdrained hnew).mono ?_ fun _ h => h
        intro _ u hparts
        obtain ⟨hu, hcontents, hmembers⟩ := hparts
        exact ⟨hu, hcontents, _, hmembers, rfl, Nat.le_of_lt (Nat.not_le.mp hn), Nat.le_refl _⟩
    · intro hcause
      have hkeep := inv.keep (m.calls + 1) fun _ _ _ _ _ => rfl
      exact ⟨hkeep.1, hcause, fun _ => hkeep.2⟩

theorem myVec_correct (E : Element T) :
    (myVec E).Correct E (fun _ => True) (E.nothrowMoveAssignable = true ∨ E.copyAssignable = true)
    where
  listConstruct inv _ _ := listConstruct_spec inv
  copyConstruct inv _ ho := copyConstruct_spec inv ho
  copyAssign inv hv ho := copyAssign_spec inv hv ho
  reserve inv hv := reserve_spec inv hv
  popBack {m v f} inv hv hpos := by
    change Ensures (popBack v) _ _ m
    rw [popBack, ensures_bind, ensures_members]
    refine ⟨f, hv, ?_⟩
    rw [if_pos hpos]
    exact shrink_spec inv hv

end CppCodes.Source.StdVector.VectorBasic
