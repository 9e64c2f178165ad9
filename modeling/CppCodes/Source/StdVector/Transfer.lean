import CppCodes.Source.StdVector.Ownership
import Mathlib.Order.Basic

/-!
# Filling a new buffer

The loops that copy or move elements into a newly allocated buffer, at whatever
element they are interrupted. They change the new buffer, and a move its source;
nothing else.
-/

set_option autoImplicit false

namespace CppCodes.Source.StdVector

open Library Library.Code

variable {T : Type} {E : Element T} {m t : Memory T} {R : Memory T → Prop}

/-- Some call throws. -/
def Element.Throws (E : Element T) : Prop := ∃ k, E.throwsAt k = true

theorem ensures_loadSlot {p : Option Nat} {i : Nat} {slots : List T} {x : T}
    {Q : T → Memory T → Prop} (hp : Memory.slotsAt m.heap p = some slots)
    (hx : slots[i]? = some x) (hQ : Q x m) : Ensures (loadSlot p i) Q R m := by
  rw [loadSlot, ensures_bind, ensures_read, ensures_require]
  refine ⟨x, ?_, hQ⟩
  cases p with
  | none =>
    cases hp
    cases hx
  | some a => rw [Option.bind_some, BlockHeap.load_eq hp, hx]

theorem ensures_storeSlot {p : Option Nat} {a i : Nat} {slots : List T} {x : T}
    {Q : Unit → Memory T → Prop} (hp : p = some a) (ha : m.heap.block a = some slots)
    (hi : i < slots.length) (hQ : Q () { m with heap := m.heap.write a (slots.set i x) }) :
    Ensures (storeSlot p i x) Q R m := by
  rw [hp, storeSlot, ensures_bind, ensures_read, ensures_setHeap]
  exact ⟨_, BlockHeap.store_eq ha hi, hQ⟩

theorem ensures_deleteArray {form : Form} {p : Option Nat} {slots : List T}
    {Q : Unit → Memory T → Prop} (hform : form = .array) (hp : Memory.slotsAt m.heap p = some slots)
    (hnull : p = none → Q () m)
    (hfree : ∀ a, p = some a → Q () { m with heap := m.heap.remove a }) :
    Ensures (deleteArray form p) Q R m := by
  subst hform
  cases p with
  | none => exact hnull rfl
  | some a =>
    rw [deleteArray, ensures_bind, ensures_read, ensures_setHeap]
    exact ⟨_, BlockHeap.free_eq hp, hfree a rfl⟩

theorem ensures_newArray {n : Nat} {Q : Nat → Memory T → Prop}
    (hdone : n < 2 ^ 63 →
      Q m.heap.next ⟨m.heap.alloc (List.replicate n E.init), m.vecs, m.calls + 1⟩)
    (hthrew : E.Throws ∨ 2 ^ 63 ≤ n → R ⟨m.heap, m.vecs, m.calls + 1⟩) :
    Ensures (newArray E n) Q R m := by
  rw [newArray, ensures_bind]
  refine ensures_mayThrow ?_ fun h => hthrew (Or.inl ⟨_, h⟩)
  by_cases hn : 2 ^ 63 ≤ n
  · rw [if_pos hn]
    exact hthrew (Or.inr hn)
  · rw [if_neg hn]
    exact hdone (Nat.not_le.mp hn)

theorem ensures_mayThrowOnMove {Q : Unit → Memory T → Prop}
    (hdone : ∀ calls, Q () ⟨m.heap, m.vecs, calls⟩)
    (hthrew : ∀ calls, E.nothrowMoveAssignable = false → E.Throws → R ⟨m.heap, m.vecs, calls⟩) :
    Ensures (mayThrowOnMove E) Q R m := by
  unfold mayThrowOnMove
  by_cases h : E.nothrowMoveAssignable = true
  · rw [if_pos h]
    exact hdone m.calls
  · rw [if_neg h]
    exact ensures_mayThrow (hdone _) fun hk => hthrew _ (by simpa using h) ⟨_, hk⟩

/-- `t` differs from `m` at most in the blocks `S`. -/
structure Changed (m t : Memory T) (S : Nat → Prop) : Prop where
  vecs : t.vecs = m.vecs
  frame : ∀ a, ¬ S a → t.heap.block a = m.heap.block a

theorem Changed.refl (m : Memory T) (S : Nat → Prop) : Changed m m S := ⟨rfl, fun _ _ => rfl⟩

theorem Changed.calls {S : Nat → Prop} (h : Changed m t S) (n : Nat) :
    Changed m ⟨t.heap, t.vecs, n⟩ S := ⟨h.vecs, h.frame⟩

theorem Changed.write {S : Nat → Prop} (h : Changed m t S) {a : Nat} (ha : S a)
    {slots : List T} : Changed m { t with heap := t.heap.write a slots } S := by
  refine ⟨h.vecs, ?_⟩
  intro b hb
  have hne : b ≠ a := by
    intro hsame
    obtain rfl := hsame
    exact hb ha
  exact (BlockHeap.block_write_of_ne hne).trans (h.frame b hb)

theorem set_take_append_drop {α : Type} {xs ys : List α} {i : Nat} {x : α} (hx : xs[i]? = some x)
    (hi : i < ys.length) :
    (xs.take i ++ ys.drop i).set i x = xs.take (i + 1) ++ ys.drop (i + 1) := by
  obtain ⟨hlt, rfl⟩ := List.getElem?_eq_some_iff.mp hx
  have hlen : (xs.take i).length = i := by rw [List.length_take]; omega
  rw [List.set_append_right _ _ (by omega), hlen, Nat.sub_self, List.drop_eq_getElem_cons hi,
    List.set_cons_zero, List.take_succ_eq_append_getElem hlt, List.append_assoc]
  rfl

section Loops

variable {dst n : Nat} {src : Option Nat} {ss ds : List T}

/-- `for (i < n) dst[i] = src[i]` -/
theorem copyLoop (hsrc : Memory.slotsAt m.heap src = some ss)
    (hdst : m.heap.block dst = some ds) (hne : src ≠ some dst) (hs : n ≤ ss.length)
    (hd : n ≤ ds.length) :
    Ensures (forRange (copySlot E (some dst) src) 0 n)
      (fun _ t => Changed m t (· = dst) ∧ t.heap.block dst = some (ss.take n ++ ds.drop n))
      (fun t => Changed m t (· = dst) ∧ E.Throws ∧ ∃ slots, t.heap.block dst = some slots) m := by
  refine Ensures.forRange
    (I := fun i t => Changed m t (· = dst) ∧ t.heap.block dst = some (ss.take i ++ ds.drop i))
    ⟨Changed.refl m _, hdst⟩ ?_
  intro i t hi ht
  obtain ⟨hchanged, hblock⟩ := ht
  have hload : Memory.slotsAt t.heap src = some ss := by
    refine (slotsAt_congr fun a ha => hchanged.frame a ?_).trans hsrc
    intro hsame
    obtain rfl := hsame
    exact hne ha
  have hx : ss[i]? = some ss[i] := List.getElem?_eq_getElem (by omega)
  rw [copySlot, ensures_bind]
  refine ensures_loadSlot hload hx ?_
  rw [ensures_bind]
  refine ensures_mayThrow ?_ fun hk => ⟨hchanged.calls _, ⟨_, hk⟩, _, hblock⟩
  refine ensures_storeSlot rfl hblock ?_ ?_
  · simp only [List.length_append, List.length_take, List.length_drop]
    omega
  · rw [set_take_append_drop hx (by omega)]
    exact ⟨(hchanged.calls _).write rfl, BlockHeap.block_write_self hblock⟩

/-- The slots behind a pointer that is not the one written to. -/
theorem Changed.slotsAt {S : Nat → Prop} (h : Changed m t S) (hsrc : Memory.slotsAt m.heap src = some ss)
    (hS : ∀ a, src = some a → ¬ S a) : Memory.slotsAt t.heap src = some ss :=
  (slotsAt_congr fun a ha => h.frame a (hS a ha)).trans hsrc

/-- `for (i < n) dst[i] = std::move(src[i])`. What is left in the source is not said. -/
theorem moveLoop (hsrc : Memory.slotsAt m.heap src = some ss)
    (hdst : m.heap.block dst = some ds) (hne : src ≠ some dst) (hs : n ≤ ss.length)
    (hd : n ≤ ds.length) :
    Ensures (forRange (moveSlot E (some dst) src) 0 n)
      (fun _ t => Changed m t (fun a => a = dst ∨ src = some a) ∧
        t.heap.block dst = some (ss.take n ++ ds.drop n) ∧
        ∃ left, Memory.slotsAt t.heap src = some left ∧ left.length = ss.length)
      (fun t => Changed m t (fun a => a = dst ∨ src = some a) ∧
        E.nothrowMoveAssignable = false ∧ E.Throws ∧ (∃ slots, t.heap.block dst = some slots) ∧
        ∃ left, Memory.slotsAt t.heap src = some left ∧ left.length = ss.length) m := by
  -- the elements from `i` on have not been moved out yet
  refine (Ensures.forRange
    (I := fun i t => Changed m t (fun a => a = dst ∨ src = some a) ∧
      t.heap.block dst = some (ss.take i ++ ds.drop i) ∧
      ∃ left, Memory.slotsAt t.heap src = some left ∧ left.length = ss.length ∧
        left.drop i = ss.drop i)
    ⟨Changed.refl m _, hdst, ss, hsrc, rfl, rfl⟩ ?_).mono ?_ fun _ h => h
  · intro i t hi ht
    obtain ⟨hchanged, hblock, left, hleft, hlen, hdrop⟩ := ht
    have hx : ss[i]? = some ss[i] := List.getElem?_eq_getElem (by omega)
    have hxl : left[i]? = some ss[i] := by
      rw [← hx, ← Nat.add_zero i, ← List.getElem?_drop, ← List.getElem?_drop, hdrop]
    have hdstlen : i < (ss.take i ++ ds.drop i).length := by
      simp only [List.length_append, List.length_take, List.length_drop]
      omega
    cases src with
    | none =>
      cases hsrc
      exact absurd hi (by simp only [List.length_nil] at hs; omega)
    | some q =>
      have hq : q ≠ dst := by
        intro hsame
        obtain rfl := hsame
        exact hne rfl
      rw [moveSlot, ensures_bind]
      refine ensures_loadSlot hleft hxl ?_
      rw [ensures_bind]
      refine ensures_mayThrowOnMove ?_ fun calls hmove hthrows =>
        ⟨hchanged.calls _, hmove, hthrows, ⟨_, hblock⟩, left, hleft, hlen⟩
      intro calls
      rw [ensures_bind]
      refine ensures_storeSlot rfl hblock hdstlen ?_
      rw [set_take_append_drop hx (by omega)]
      have hqblock : (t.heap.write dst (ss.take (i + 1) ++ ds.drop (i + 1))).block q = some left :=
        (BlockHeap.block_write_of_ne hq).trans hleft
      refine ensures_storeSlot rfl hqblock (by omega) ?_
      refine ⟨((hchanged.calls calls).write (Or.inl rfl)).write (Or.inr rfl), ?_, _,
        BlockHeap.block_write_self hqblock, by rw [List.length_set, hlen], ?_⟩
      · exact (BlockHeap.block_write_of_ne hq.symm).trans (BlockHeap.block_write_self hblock)
      · rw [List.drop_set_of_lt (Nat.lt_add_one i), ← List.drop_drop, hdrop, List.drop_drop]
  · intro _ t hparts
    obtain ⟨hchanged, hblock, left, hleft, hlen, -⟩ := hparts
    exact ⟨hchanged, hblock, left, hleft, hlen⟩

/-- `std::copy(il.begin(), il.end(), dst)` -/
theorem listLoop {il : List T} (hdst : m.heap.block dst = some ds) (hd : il.length ≤ ds.length) :
    Ensures (copyList E (some dst) il)
      (fun _ t => Changed m t (· = dst) ∧ t.heap.block dst = some (il ++ ds.drop il.length))
      (fun t => Changed m t (· = dst) ∧ E.Throws) m := by
  refine (Ensures.forRange
    (I := fun i t => Changed m t (· = dst) ∧ t.heap.block dst = some (il.take i ++ ds.drop i))
    ⟨Changed.refl m _, hdst⟩ ?_).mono ?_ fun _ h => h
  · intro i t hi ht
    obtain ⟨hchanged, hblock⟩ := ht
    have hx : il[i]? = some il[i] := List.getElem?_eq_getElem hi
    rw [ensures_bind, hx, ensures_require]
    refine ⟨_, rfl, ?_⟩
    rw [ensures_bind]
    refine ensures_mayThrow ?_ fun hk => ⟨hchanged.calls _, _, hk⟩
    refine ensures_storeSlot rfl hblock ?_ ?_
    · simp only [List.length_append, List.length_take, List.length_drop]
      omega
    · rw [set_take_append_drop hx (by omega)]
      exact ⟨(hchanged.calls _).write rfl, BlockHeap.block_write_self hblock⟩
  · intro _ t ht
    rwa [List.take_length] at ht

end Loops

section Adopt

variable {v : Nat} {f g : MyVec}

theorem Inv.lt_next (inv : Inv m) {a : Nat} (hv : m.vecs v = some f) (ha : f.data = some a) :
    a < m.heap.next := by
  obtain ⟨slots, hslots, -⟩ := (inv.sound hv).buffer
  rw [ha] at hslots
  exact BlockHeap.lt_next hslots

/-- A block that did not exist is no vector's. -/
theorem Inv.free_of_new (inv : Inv m) {a : Nat} (ha : m.heap.next ≤ a) (hg : g.data = some a) :
    Free m v g := by
  intro w k b _ hw hk hgb
  have hlt := inv.lt_next hw hk
  rw [hg] at hgb
  cases hgb
  omega

/-- A new vector takes a filled block as its buffer. -/
theorem Inv.adopt (inv : Inv m) {a : Nat} {slots : List T} (hvecs : t.vecs = m.vecs)
    (frame : Frame m t.heap v) (ha : m.heap.next ≤ a) (hblock : t.heap.block a = some slots)
    (hg : g.data = some a) (hlen : slots.length = g.cap) (hsize : g.size ≤ g.cap)
    (hcap : g.cap < 2 ^ 63) (hform : g.form = .array) :
    let u : Memory T := { t with vecs := Function.update t.vecs v (some g) }
    Inv u ∧ u.contents = Function.update m.contents v (some (slots.take g.size)) := by
  have hslots : Memory.slotsAt t.heap g.data = some slots := by
    rw [hg]
    exact hblock
  have hupdate : Inv ⟨t.heap, Function.update m.vecs v (some g), t.calls⟩ ∧ _ :=
    inv.update t.calls (f := some g) frame
      (fun k hk => Option.some.inj hk ▸ ⟨⟨slots, hslots, hlen⟩, hsize, hcap⟩)
      (fun k hk => Option.some.inj hk ▸ inv.free_of_new ha hg)
      fun k hk => Option.some.inj hk ▸ hform
  rw [Option.map_some, elements_eq hslots, ← hvecs] at hupdate
  exact hupdate

/-- `delete[] data_; data_ = new_data; ..`, once the new buffer is filled. -/
theorem Inv.replace (inv : Inv m) (hv : m.vecs v = some f) {a : Nat} {slots : List T}
    (hvecs : t.vecs = m.vecs) (frame : Frame m t.heap v) (ha : m.heap.next ≤ a)
    (hblock : t.heap.block a = some slots)
    (hold : ∃ left, Memory.slotsAt t.heap f.data = some left) (hg : g.data = some a)
    (hlen : slots.length = g.cap) (hsize : g.size ≤ g.cap) (hcap : g.cap < 2 ^ 63)
    (hform : g.form = .array) :
    Ensures (do deleteArray f.form f.data; setMembers v (some g))
      (fun _ u => Inv u ∧ u.contents = Function.update m.contents v (some (slots.take g.size)) ∧
        u.vecs v = some g) R t := by
  obtain ⟨left, hleft⟩ := hold
  rw [ensures_bind]
  refine ensures_deleteArray (inv.array hv) hleft ?_ ?_
  · intro _
    have hadopt := inv.adopt hvecs frame ha hblock hg hlen hsize hcap hform
    exact ⟨hadopt.1, hadopt.2, Function.update_self ..⟩
  · intro b hb
    have hba : a ≠ b := by
      have := inv.lt_next hv hb
      omega
    have hframe : Frame m (t.heap.remove b) v := by
      intro w k c hw hk hc
      have hcb : c ≠ b := by
        intro hsame
        obtain rfl := hsame
        exact hw (inv.owned hk hv hc hb)
      exact (BlockHeap.block_remove_of_ne hcb).trans (frame w k c hw hk hc)
    have hadopt := inv.adopt (t := ⟨t.heap.remove b, t.vecs, t.calls⟩) hvecs hframe ha
      ((BlockHeap.block_remove_of_ne hba).trans hblock) hg hlen hsize hcap hform
    exact ⟨hadopt.1, hadopt.2, Function.update_self ..⟩

/-- Since `m` a block with `cap` slots has been allocated that begins with `xs`. -/
structure Filled (m t : Memory T) (cap : Nat) (xs : List T) : Prop where
  vecs : t.vecs = m.vecs
  frame : ∀ a < m.heap.next, t.heap.block a = m.heap.block a
  block : ∃ slots, t.heap.block m.heap.next = some slots ∧ slots.length = cap ∧
    slots.take xs.length = xs

theorem Inv.frame_of_lt (inv : Inv m) {heap : BlockHeap T}
    (h : ∀ a < m.heap.next, heap.block a = m.heap.block a) (v : Nat) : Frame m heap v :=
  fun _ _ a _ hw ha => h a (inv.lt_next hw ha)

/-- The state after a copy that threw: whatever became of the new block, no vector has it. -/
theorem Inv.discard (inv : Inv m) (hvecs : t.vecs = m.vecs)
    (h : ∀ a < m.heap.next, t.heap.block a = m.heap.block a) : Inv t ∧ t.contents = m.contents := by
  have hkeep := inv.keep t.calls fun _ _ a hw ha => h a (inv.lt_next hw ha)
  rw [← hvecs] at hkeep
  exact hkeep

/-- What a transfer leaves in a block of `n` slots. -/
theorem Inv.filled (inv : Inv m) {o n : Nat} {slots ds : List T} (ho : m.vecs o = some g)
    (hslots : Memory.slotsAt m.heap g.data = some slots) (hn : g.size ≤ n) (hds : ds.length = n) :
    (slots.take g.size ++ ds.drop g.size).length = n ∧
      (slots.take g.size ++ ds.drop g.size).take (elements m.heap g).length =
        elements m.heap g := by
  have hsound := inv.sound ho
  have hlen := hsound.elements_length
  rw [elements_eq hslots] at hlen ⊢
  constructor
  · rw [List.length_append, hlen, List.length_drop]
    omega
  · exact List.take_left ..

/-- The elements of a vector are copied into a new block. -/
theorem copyElements (inv : Inv m) {o n : Nat} (ho : m.vecs o = some g) (hn : g.size ≤ n)
    (calls : Nat) :
    Ensures (forRange (copySlot E (some m.heap.next) g.data) 0 g.size)
      (fun _ t => Filled m t n (elements m.heap g))
      (fun t => E.Throws ∧ t.vecs = m.vecs ∧ (∃ slots, t.heap.block m.heap.next = some slots) ∧
        ∀ a < m.heap.next, t.heap.block a = m.heap.block a)
      ⟨m.heap.alloc (List.replicate n E.init), m.vecs, calls⟩ := by
  have hsound := inv.sound ho
  obtain ⟨slots, hslots, hlen⟩ := hsound.buffer
  have hsize := hsound.size_le
  have hframe : ∀ {t : Memory T}, Changed ⟨m.heap.alloc (List.replicate n E.init), m.vecs, calls⟩
      t (· = m.heap.next) → ∀ a < m.heap.next, t.heap.block a = m.heap.block a := fun h a ha =>
    (h.frame a (Nat.ne_of_lt ha)).trans (BlockHeap.block_alloc_of_lt ha)
  have hsrc : Memory.slotsAt (m.heap.alloc (List.replicate n E.init)) g.data = some slots :=
    (slotsAt_congr fun a ha => BlockHeap.block_alloc_of_lt (inv.lt_next ho ha)).trans hslots
  have hne : g.data ≠ some m.heap.next := fun h => Nat.lt_irrefl _ (inv.lt_next ho h)
  refine (copyLoop hsrc BlockHeap.block_alloc_self hne (by omega)
    (by rw [List.length_replicate]; exact hn)).mono ?_ ?_
  · intro _ t hboth
    obtain ⟨hchanged, hblock⟩ := hboth
    exact ⟨hchanged.vecs, hframe hchanged, _, hblock,
      inv.filled ho hslots hn (List.length_replicate ..)⟩
  · intro t hparts
    obtain ⟨hchanged, hthrows, hblock⟩ := hparts
    exact ⟨hthrows, hchanged.vecs, hblock, hframe hchanged⟩

/-- Since `m` the elements of `f` may have been moved out of its buffer. -/
structure Drained (m t : Memory T) (f : MyVec) : Prop where
  vecs : t.vecs = m.vecs
  frame : ∀ a < m.heap.next, f.data ≠ some a → t.heap.block a = m.heap.block a
  left : ∃ left, Memory.slotsAt t.heap f.data = some left ∧ left.length = f.cap

theorem Filled.drained {cap : Nat} {xs : List T} (h : Filled m t cap xs) (inv : Inv m)
    (hv : m.vecs v = some f) : Drained m t f := by
  obtain ⟨slots, hslots, hlen⟩ := (inv.sound hv).buffer
  exact ⟨h.vecs, fun a ha _ => h.frame a ha, slots,
    (slotsAt_congr fun a ha => h.frame a (inv.lt_next hv ha)).trans hslots, hlen⟩

theorem Drained.frame_of {t : Memory T} (h : Drained m t f) (inv : Inv m) (hv : m.vecs v = some f) :
    Frame m t.heap v := by
  intro w k a hw hk ha
  refine h.frame a (inv.lt_next hk ha) ?_
  intro hfa
  exact hw (inv.owned hk hv ha hfa)

/-- Only blocks newer than `m` change further. -/
theorem Drained.congr {heap : BlockHeap T} (h : Drained m t f) (inv : Inv m)
    (hv : m.vecs v = some f) (hheap : ∀ a < m.heap.next, heap.block a = t.heap.block a) :
    Drained m { t with heap := heap } f := by
  obtain ⟨left, hleft, hlen⟩ := h.left
  exact ⟨h.vecs, fun a ha hfa => (hheap a ha).trans (h.frame a ha hfa), left,
    (slotsAt_congr fun a ha => hheap a (inv.lt_next hv ha)).trans hleft, hlen⟩

/-- A vector whose elements are moved out still has its buffer. -/
theorem Drained.inv (h : Drained m t f) (inv : Inv m) (hv : m.vecs v = some f) : Inv t := by
  obtain ⟨left, hleft, hlen⟩ := h.left
  have hsound := inv.sound hv
  have hupdate := inv.update t.calls (f := some f) (h.frame_of inv hv) ?_ ?_ ?_
  · rw [← hv, Function.update_eq_self, ← h.vecs] at hupdate
    exact hupdate.1
  · intro k hk
    cases hk
    exact ⟨⟨left, hleft, hlen⟩, hsound.size_le, hsound.cap_lt⟩
  · intro k hk w j b hw hj hb hkb
    cases hk
    exact hw (inv.owned hj hv hb hkb)
  · intro k hk
    cases hk
    exact inv.array hv

/-- The elements of a vector are moved into a new block. -/
theorem moveElements (inv : Inv m) {n : Nat} (hv : m.vecs v = some f) (hn : f.size ≤ n)
    (calls : Nat) :
    Ensures (forRange (moveSlot E (some m.heap.next) f.data) 0 f.size)
      (fun _ t => Drained m t f ∧ ∃ slots, t.heap.block m.heap.next = some slots ∧
        slots.length = n ∧ slots.take f.size = elements m.heap f)
      (fun t => E.nothrowMoveAssignable = false ∧ E.Throws ∧
        (∃ slots, t.heap.block m.heap.next = some slots) ∧ Drained m t f)
      ⟨m.heap.alloc (List.replicate n E.init), m.vecs, calls⟩ := by
  have hsound := inv.sound hv
  obtain ⟨slots, hslots, hlen⟩ := hsound.buffer
  have hsize := hsound.size_le
  have hsrc : Memory.slotsAt (m.heap.alloc (List.replicate n E.init)) f.data = some slots :=
    (slotsAt_congr fun a ha => BlockHeap.block_alloc_of_lt (inv.lt_next hv ha)).trans hslots
  have hne : f.data ≠ some m.heap.next := fun h => Nat.lt_irrefl _ (inv.lt_next hv h)
  have hdrained : ∀ {t : Memory T}, Changed ⟨m.heap.alloc (List.replicate n E.init), m.vecs, calls⟩
      t (fun a => a = m.heap.next ∨ f.data = some a) →
      (∃ left, Memory.slotsAt t.heap f.data = some left ∧ left.length = slots.length) →
      Drained m t f := by
    intro t hchanged hparts
    obtain ⟨left, hleft, hlength⟩ := hparts
    refine ⟨hchanged.vecs, ?_, left, hleft, hlength.trans hlen⟩
    intro a ha hfa
    refine (hchanged.frame a ?_).trans (BlockHeap.block_alloc_of_lt ha)
    rintro (h | h)
    · exact Nat.ne_of_lt ha h
    · exact hfa h
  refine (moveLoop hsrc BlockHeap.block_alloc_self hne (by omega)
    (by rw [List.length_replicate]; exact hn)).mono ?_ ?_
  · intro _ t hparts
    obtain ⟨hchanged, hblock, hleft⟩ := hparts
    have hfilled := inv.filled hv hslots hn (List.length_replicate (a := E.init) (n := n))
    rw [hsound.elements_length] at hfilled
    exact ⟨hdrained hchanged hleft, _, hblock, hfilled⟩
  · intro t hparts
    obtain ⟨hchanged, hmove, hthrows, hblock, hleft⟩ := hparts
    exact ⟨hmove, hthrows, hblock, hdrained hchanged hleft⟩

end Adopt

end CppCodes.Source.StdVector
