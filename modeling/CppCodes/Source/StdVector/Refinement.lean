import CppCodes.Source.StdVector.Transfer

/-!
# Vectors as lists

The lists the vectors of a program stand for, and the members both files share. What
the other members owe is `Class.Correct`; a class that is correct changes the lists
the way each statement says (`perform_spec`).
-/

set_option autoImplicit false

namespace CppCodes.Source.StdVector

open Library Library.Code

variable {T : Type}

namespace ListStore

def sizes (r : ListStore T) : Nat → Option Nat := fun v => (r v).map List.length

def push (r : ListStore T) (v : Nat) (x : Option T) : ListStore T :=
  Function.update r v ((r v).map fun xs => xs ++ x.toList)

def moveTo (r : ListStore T) (v o : Nat) : ListStore T :=
  Function.update (Function.update r v (r o)) o (some [])

end ListStore

def Arg.value (r : ListStore T) : Arg T → Option T
  | .temporary x => some x
  | .slot v i => (r v).bind fun xs => xs[i]?

/-- The lists once the argument has been moved from. -/
def Arg.moved (E : Element T) (r : ListStore T) : Arg T → ListStore T
  | .temporary _ => r
  | .slot v i => Function.update r v ((r v).map fun xs => xs.modify i E.movedFrom)

/-- The lists once a constructor has used the argument. -/
def Forwarded.used (r : ListStore T) (a : Forwarded T) : ListStore T :=
  match a.left with
  | none => r
  | some left => Function.update r a.v ((r a.v).map fun xs => xs.modify a.i left)

/-- The elements a constructor sees behind its arguments, which it uses one after the other. -/
def valuesSeen (r : ListStore T) : List (Forwarded T) → List T
  | [] => []
  | a :: args => ((r a.v).bind fun xs => xs[a.i]?).toList ++ valuesSeen (a.used r) args

/-- What a statement does to the lists. A vector moved from is empty. -/
def Op.apply (E : Element T) (r : ListStore T) : Op T → ListStore T
  | .construct v => Function.update r v (some [])
  | .listConstruct v il => Function.update r v (some il)
  | .copyConstruct v o | .copyAssign v o => Function.update r v (r o)
  | .moveConstruct v o => r.moveTo v o
  | .moveAssign v o => if v = o then r else r.moveTo v o
  | .destruct v => Function.update r v none
  | .reserve _ _ | .index _ _ => r
  | .pushBack v a => r.push v (a.value r)
  | .pushBackMove v a => (a.moved E r).push v (a.value r)
  | .emplaceBack v args make =>
      (args.foldl Forwarded.used r).push v (some (make (valuesSeen r args)))
  | .popBack v => Function.update r v ((r v).map List.dropLast)
  | .indexAssign v i x => Function.update r v ((r v).map fun xs => xs.set i x)

def Op.reads (r : ListStore T) : Op T → List T
  | .index v i => ((r v).bind fun xs => xs[i]?).toList
  | _ => []

/-- The reference: the same programs over lists. -/
def reference (E : Element T) : Machine (ListStore T) (Op T) (Event T) where
  step r op :=
    if op.contract r.sizes then some (op.apply E r, (op.reads r).map .value) else none

/-- What the members owe that the two files write differently: the lists change the
way they should, a member that throws leaves every list alone (`reserve` if `safe`),
and none throws unless an element does or the array is too long. -/
structure Class.Correct (E : Element T) (C : Class T) (listed : List T → Prop) (safe : Prop) :
    Prop where
  listConstruct : ∀ {m : Memory T} {v il}, Inv m → m.vecs v = none → listed il →
    Ensures (C.listConstruct v il)
      (fun _ t => Inv t ∧ t.contents = Function.update m.contents v (some il))
      (fun t => Inv t ∧ (E.Throws ∨ 2 ^ 63 ≤ il.length) ∧ t.contents = m.contents) m
  copyConstruct : ∀ {m : Memory T} {v o g}, Inv m → m.vecs v = none → m.vecs o = some g →
    Ensures (C.copyConstruct v o)
      (fun _ t => Inv t ∧ t.contents = Function.update m.contents v (m.contents o))
      (fun t => Inv t ∧ E.Throws ∧ t.contents = m.contents) m
  copyAssign : ∀ {m : Memory T} {v o f g}, Inv m → m.vecs v = some f → m.vecs o = some g →
    Ensures (C.copyAssign v o)
      (fun _ t => Inv t ∧ t.contents = Function.update m.contents v (m.contents o))
      (fun t => Inv t ∧ E.Throws ∧ t.contents = m.contents) m
  reserve : ∀ {m : Memory T} {v f n}, Inv m → m.vecs v = some f →
    Ensures (C.reserve v n)
      (fun _ t => Inv t ∧ t.contents = m.contents ∧
        ∃ g, t.vecs v = some g ∧ g.size = f.size ∧ f.cap ≤ g.cap ∧ n ≤ g.cap)
      (fun t => Inv t ∧ (E.Throws ∨ 2 ^ 63 ≤ n) ∧ (safe → t.contents = m.contents)) m
  popBack : ∀ {m : Memory T} {v f}, Inv m → m.vecs v = some f → 0 < f.size →
    Ensures (C.popBack v)
      (fun _ t => Inv t ∧
        t.contents = Function.update m.contents v (some (elements m.heap f).dropLast))
      (fun _ => False) m

variable {E : Element T} {m : Memory T} {R : Memory T → Prop}

theorem below_iff {v i : Nat} : below m.sizes v i = true ↔ ∃ f, m.vecs v = some f ∧ i < f.size := by
  unfold below Memory.sizes
  cases hv : m.vecs v <;> simp

theorem sizes_isSome {v : Nat} (h : (m.sizes v).isSome = true) : ∃ f, m.vecs v = some f := by
  rw [Memory.sizes, Option.isSome_map] at h
  exact Option.isSome_iff_exists.mp h

theorem sizes_isNone {v : Nat} (h : (m.sizes v).isNone = true) : m.vecs v = none := by
  rw [Memory.sizes, Option.isNone_map] at h
  exact Option.isNone_iff_eq_none.mp h

theorem Sound.block {heap : BlockHeap T} {f : MyVec} (h : Sound heap f) (hcap : 0 < f.cap) :
    ∃ a slots, f.data = some a ∧ heap.block a = some slots ∧ slots.length = f.cap := by
  obtain ⟨slots, hslots, hlen⟩ := h.buffer
  cases hdata : f.data with
  | none =>
    rw [hdata] at hslots
    cases hslots
    exact absurd hlen (Nat.ne_of_lt hcap)
  | some a =>
    rw [hdata] at hslots
    exact ⟨a, slots, rfl, hslots, hlen⟩

theorem getElem?_elements {heap : BlockHeap T} {f : MyVec} {slots : List T} {i : Nat}
    (h : Memory.slotsAt heap f.data = some slots) (hi : i < f.size) :
    (elements heap f)[i]? = slots[i]? := by
  rw [elements_eq h, List.getElem?_take_of_lt hi]

/-- The contents of a vector's own buffer change, and its size with them. -/
theorem Inv.rewrite (inv : Inv m) {v a : Nat} {f g : MyVec} (slots : List T) (calls : Nat)
    (hv : m.vecs v = some f) (ha : f.data = some a) (hblock : ∃ old, m.heap.block a = some old)
    (hdata : g.data = some a) (hlen : slots.length = g.cap) (hsize : g.size ≤ g.cap)
    (hcap : g.cap < 2 ^ 63) (hform : g.form = .array) :
    Inv ⟨m.heap.write a slots, Function.update m.vecs v (some g), calls⟩ ∧
      Memory.contents ⟨m.heap.write a slots, Function.update m.vecs v (some g), calls⟩ =
        Function.update m.contents v (some (slots.take g.size)) := by
  obtain ⟨old, hold⟩ := hblock
  have hslots : Memory.slotsAt (m.heap.write a slots) g.data = some slots := by
    rw [hdata]
    exact BlockHeap.block_write_self hold
  have hframe : Frame m (m.heap.write a slots) v := by
    intro w k b hw hk hb
    refine BlockHeap.block_write_of_ne ?_
    intro hsame
    obtain rfl := hsame
    exact hw (inv.owned hk hv hb ha)
  rw [← elements_eq hslots, ← Option.map_some]
  refine inv.update calls hframe (fun k hk => Option.some.inj hk ▸ ⟨⟨slots, hslots, hlen⟩, hsize, hcap⟩) ?_
    fun k hk => Option.some.inj hk ▸ hform
  intro k hk w j b hw hj hb hkb
  cases hk
  rw [hdata] at hkb
  cases hkb
  exact hw (inv.owned hj hv hb ha)

/-- An element changes. -/
theorem Inv.setElement (inv : Inv m) {v i : Nat} {f : MyVec} (x : T) (calls : Nat)
    (hv : m.vecs v = some f) (hi : i < f.size) :
    ∃ a slots, f.data = some a ∧ m.heap.block a = some slots ∧ i < slots.length ∧
      Inv ⟨m.heap.write a (slots.set i x), m.vecs, calls⟩ ∧
      Memory.contents ⟨m.heap.write a (slots.set i x), m.vecs, calls⟩ =
        Function.update m.contents v (some ((elements m.heap f).set i x)) := by
  have hsound := inv.sound hv
  have hsize := hsound.size_le
  obtain ⟨a, slots, ha, hblock, hlen⟩ := hsound.block (by omega)
  have hslots : Memory.slotsAt m.heap f.data = some slots := by
    rw [ha]
    exact hblock
  have hrewrite := inv.rewrite (slots.set i x) calls hv ha ⟨slots, hblock⟩ ha
    (by rw [List.length_set, hlen]) hsize hsound.cap_lt (inv.array hv)
  rw [← hv, Function.update_eq_self, List.take_set, ← elements_eq hslots] at hrewrite
  exact ⟨a, slots, ha, hblock, by omega, hrewrite⟩

section Members

variable {C : Class T} {listed : List T → Prop} {safe : Prop}

/-- Where there is no room for another element, `reserve` makes it. -/
theorem grow_spec (correct : C.Correct E listed safe) (inv : Inv m) {v : Nat} {f : MyVec}
    (hv : m.vecs v = some f) :
    Ensures (grow C.reserve v)
      (fun _ t => Inv t ∧ t.contents = m.contents ∧
        ∃ g, t.vecs v = some g ∧ g.size = f.size ∧ g.size < g.cap)
      (fun t => Inv t ∧ (E.Throws ∨ 2 ^ 63 ≤ f.wanted) ∧ (safe → t.contents = m.contents)) m := by
  have hsound := inv.sound hv
  rw [grow, ensures_bind, ensures_members]
  refine ⟨f, hv, ?_⟩
  by_cases hfull : f.size = f.cap
  · rw [if_pos hfull]
    have hwanted : f.wanted = f.grown := if_pos hfull
    refine (correct.reserve inv hv).mono ?_ ?_
    · intro _ t hparts
      obtain ⟨hinv, hcontents, g, hg, hsize, hcap, hgrown⟩ := hparts
      refine ⟨hinv, hcontents, g, hg, hsize, ?_⟩
      have hlt : f.cap < f.grown := by
        have := hsound.cap_lt
        unfold MyVec.grown sizeT
        split <;> omega
      omega
    · rw [hwanted]
      exact fun t h => h
  · rw [if_neg hfull]
    have hle := hsound.size_le
    exact ⟨inv, rfl, f, hv, rfl, by omega⟩

theorem take_set_self {α : Type} {xs : List α} {i : Nat} {x : α} (h : i < xs.length) :
    (xs.set i x).take (i + 1) = xs.take i ++ [x] := by
  rw [List.take_succ_eq_append_getElem (by rw [List.length_set]; exact h),
    List.getElem_set_self, List.take_set_of_le (Nat.le_refl i)]

theorem append_spec (correct : C.Correct E listed safe) (inv : Inv m) {v : Nat} {f : MyVec}
    (hv : m.vecs v = some f) (x : T) :
    Ensures (append E C.reserve v x)
      (fun _ t => Inv t ∧
        t.contents = Function.update m.contents v (some (elements m.heap f ++ [x])))
      (fun t => Inv t ∧ (E.Throws ∨ 2 ^ 63 ≤ f.wanted) ∧ (safe → t.contents = m.contents)) m := by
  rw [append]
  apply (grow_spec correct inv hv).andThen
  intro _ t hparts
  obtain ⟨hinv, hcontents, g, hg, hsize, hroom⟩ := hparts
  have hsound := hinv.sound hg
  have hlt := hsound.cap_lt
  obtain ⟨a, slots, ha, hblock, hlen⟩ := hsound.block (by omega)
  have hsame : slots.take g.size = elements m.heap f := by
    have h := contents_eq hg
    rw [hcontents, contents_eq hv, Option.some_inj] at h
    rw [h, elements_eq (show Memory.slotsAt t.heap g.data = some slots by rw [ha]; exact hblock)]
  rw [ensures_bind, ensures_members]
  refine ⟨g, hg, ?_⟩
  rw [ensures_bind]
  refine ensures_mayThrowOnMove ?_ ?_
  · intro calls
    rw [ensures_bind]
    refine ensures_storeSlot ha hblock (by omega) ?_
    rw [ensures_setMembers]
    have hnext : sizeT (g.size + 1) = g.size + 1 := Nat.mod_eq_of_lt (by omega)
    have hrewrite := hinv.rewrite (g := { g with size := sizeT (g.size + 1) })
      (slots.set g.size x) calls hg ha ⟨slots, hblock⟩ ha
      (by rw [List.length_set, hlen]) (by rw [hnext]; exact hroom) hlt
      (show g.form = .array from hinv.array hg)
    rw [hcontents, hnext, take_set_self (by omega), hsame] at hrewrite
    rw [hnext]
    exact hrewrite
  · intro calls _ hthrows
    obtain ⟨hkeep, hcontents'⟩ := hinv.keep calls fun _ _ _ _ _ => rfl
    exact ⟨hkeep, Or.inl hthrows, fun _ => hcontents'.trans hcontents⟩

theorem ensures_slot {v i : Nat} {f : MyVec} (hsound : Sound m.heap f)
    (hv : m.vecs v = some f) (hi : i < f.size) : ∃ x, m.contents v = some (elements m.heap f) ∧
      (elements m.heap f)[i]? = some x ∧
      ∀ {Q : T → Memory T → Prop}, Q x m → Ensures (loadSlot f.data i) Q R m := by
  obtain ⟨slots, hslots, hlen⟩ := hsound.buffer
  have hsize := hsound.size_le
  have hx : slots[i]? = some slots[i] := List.getElem?_eq_getElem (by omega)
  exact ⟨slots[i], contents_eq hv, (getElem?_elements hslots hi).trans hx,
    ensures_loadSlot hslots hx⟩

/-- A constructor uses one argument. -/
theorem take_spec (inv : Inv m) {a : Forwarded T} (ha : below m.sizes a.v a.i = true) :
    Ensures (a.take E)
      (fun x t => (m.contents a.v).bind (fun xs => xs[a.i]?) = some x ∧ t.vecs = m.vecs ∧ Inv t ∧
        t.contents = a.used m.contents)
      (fun t => Inv t ∧ E.Throws ∧ t.contents = m.contents) m := by
  have hkeep := inv.keep (m.calls + 1) fun _ _ _ _ _ => rfl
  obtain ⟨f, hv, hi⟩ := below_iff.mp ha
  obtain ⟨x, hcontents, hx, hload⟩ := ensures_slot (inv.sound hv) hv hi
  have hvalue : (m.contents a.v).bind (fun xs => xs[a.i]?) = some x := by
    rw [hcontents, Option.bind_some, hx]
  rw [Forwarded.take, ensures_bind, ensures_members]
  refine ⟨f, hv, ?_⟩
  rw [ensures_bind]
  refine hload ?_
  rw [ensures_bind]
  refine ensures_mayThrow ?_ fun hk => ⟨hkeep.1, ⟨_, hk⟩, hkeep.2⟩
  cases hleft : a.left with
  | none =>
    rw [Forwarded.used, hleft]
    exact ⟨hvalue, rfl, hkeep⟩
  | some left =>
    obtain ⟨b, slots, hdata, hblock, hlt, hset⟩ := inv.setElement (left x) (m.calls + 1) hv hi
    dsimp only
    rw [ensures_bind]
    refine ensures_storeSlot hdata hblock hlt ⟨hvalue, rfl, hset.1, ?_⟩
    have : Inhabited T := ⟨x⟩
    rw [hset.2, Forwarded.used, hleft]
    dsimp only
    rw [hcontents, Option.map_some, List.modify_eq_set, hx]
    rfl

/-- The value of an argument, and its copy. -/
theorem copy_spec (inv : Inv m) {a : Arg T} (ha : a.valid m.sizes = true) :
    Ensures (a.copy E)
      (fun x t => a.value m.contents = some x ∧ t.vecs = m.vecs ∧ Inv t ∧
        t.contents = m.contents)
      (fun t => Inv t ∧ E.Throws ∧ t.contents = m.contents) m := by
  cases a with
  | temporary x =>
    have hkeep := inv.keep (m.calls + 1) fun _ _ _ _ _ => rfl
    rw [Arg.copy, ensures_bind]
    exact ensures_mayThrow ⟨rfl, rfl, hkeep⟩ fun hk => ⟨hkeep.1, ⟨_, hk⟩, hkeep.2⟩
  | slot w i => exact take_spec inv ha

/-- The value of an argument, moved out of it. -/
theorem move_spec (inv : Inv m) {a : Arg T} (ha : a.valid m.sizes = true) :
    Ensures (a.move E)
      (fun x t => a.value m.contents = some x ∧ t.vecs = m.vecs ∧ Inv t ∧
        t.contents = a.moved E m.contents)
      (fun t => Inv t ∧ E.Throws ∧ t.contents = m.contents) m := by
  cases a with
  | temporary x =>
    have hkeep := inv.keep (m.calls + 1) fun _ _ _ _ _ => rfl
    rw [Arg.move, ensures_bind]
    exact ensures_mayThrow ⟨rfl, rfl, hkeep⟩ fun hk => ⟨hkeep.1, ⟨_, hk⟩, hkeep.2⟩
  | slot w i => exact take_spec inv ha

/-- The arguments are used one after the other. When one of them throws, those in front of it
have been used. -/
theorem takeAll_spec (inv : Inv m) {args : List (Forwarded T)}
    (hargs : ∀ a ∈ args, below m.sizes a.v a.i = true) :
    Ensures (takeAll E args)
      (fun xs t => xs = valuesSeen m.contents args ∧ t.vecs = m.vecs ∧ Inv t ∧
        t.contents = args.foldl Forwarded.used m.contents)
      (fun t => Inv t ∧ E.Throws ∧
        ∃ front, front <+: args ∧ t.contents = front.foldl Forwarded.used m.contents) m := by
  induction args generalizing m with
  | nil => exact ⟨rfl, rfl, inv, rfl⟩
  | cons a args ih =>
    rw [takeAll]
    refine (take_spec inv (hargs a List.mem_cons_self)).bind ?_
      fun t h => ⟨h.1, h.2.1, [], List.nil_prefix, h.2.2⟩
    intro x t hparts
    obtain ⟨hx, hvecs, hinv, hcontents⟩ := hparts
    have hsizes : t.sizes = m.sizes := by
      unfold Memory.sizes
      rw [hvecs]
    have hrest : ∀ b ∈ args, below t.sizes b.v b.i = true := by
      rw [hsizes]
      exact fun b hb => hargs b (List.mem_cons_of_mem a hb)
    refine (ih hinv hrest).bind ?_ ?_
    · intro xs u hparts
      obtain ⟨hxs, hvecs', hu, hcontents'⟩ := hparts
      refine ⟨?_, hvecs'.trans hvecs, hu, by rw [hcontents', hcontents, List.foldl_cons]⟩
      rw [valuesSeen, hx, ← hcontents, ← hxs]
      rfl
    · intro u hparts
      obtain ⟨hu, hthrows, front, hfront, hcontents'⟩ := hparts
      refine ⟨hu, hthrows, a :: front, List.cons_prefix_cons.mpr ⟨rfl, hfront⟩, ?_⟩
      rw [hcontents', hcontents, List.foldl_cons]

/-- What the element that `emplace_back` appends is made of. -/
theorem constructFrom_spec (inv : Inv m) {args : List (Forwarded T)} (make : List T → T)
    (hargs : ∀ a ∈ args, below m.sizes a.v a.i = true) :
    Ensures (constructFrom E args make)
      (fun x t => some (make (valuesSeen m.contents args)) = some x ∧ t.vecs = m.vecs ∧ Inv t ∧
        t.contents = args.foldl Forwarded.used m.contents)
      (fun t => Inv t ∧ E.Throws ∧
        ∃ front, front <+: args ∧ t.contents = front.foldl Forwarded.used m.contents) m := by
  rw [constructFrom]
  refine (takeAll_spec inv hargs).andThen ?_
  intro xs t hparts
  obtain ⟨rfl, hvecs, hinv, hcontents⟩ := hparts
  obtain ⟨hkeep, hsame⟩ := hinv.keep (t.calls + 1) fun _ _ _ _ _ => rfl
  rw [hcontents] at hsame
  rw [ensures_bind]
  exact ensures_mayThrow ⟨rfl, hvecs, hkeep, hsame⟩
    fun hk => ⟨hkeep, ⟨_, hk⟩, args, List.prefix_rfl, hsame⟩

/-- `push_back` and `emplace_back` once the argument has been evaluated: what holds of the
lists when the evaluation throws and when it returns holds of them when the rest throws. -/
theorem push_spec (correct : C.Correct E listed safe) {arg : Code (Memory T) T} {v : Nat}
    {r : ListStore T} {x : Option T} {K : ListStore T → Prop} (hv : ∃ f, m.vecs v = some f)
    (hr : K r)
    (harg : Ensures arg
      (fun y t => x = some y ∧ t.vecs = m.vecs ∧ Inv t ∧ t.contents = r)
      (fun t => Inv t ∧ E.Throws ∧ K t.contents) m) :
    Ensures (do let tmp ← arg; append E C.reserve v tmp)
      (fun _ t => Inv t ∧ t.contents = r.push v x)
      (fun t => Inv t ∧ (E.Throws ∨ ∃ f, m.vecs v = some f ∧ 2 ^ 63 ≤ f.wanted) ∧
        (safe → K t.contents)) m := by
  obtain ⟨f, hv⟩ := hv
  refine harg.bind ?_ fun t ht => ⟨ht.1, Or.inl ht.2.1, fun _ => ht.2.2⟩
  intro y t hparts
  obtain ⟨rfl, hvecs, hinv, rfl⟩ := hparts
  have htv : t.vecs v = some f := by rw [hvecs, hv]
  refine (append_spec correct hinv htv y).mono ?_ ?_
  · intro _ u hboth
    obtain ⟨hu, hcontents⟩ := hboth
    refine ⟨hu, ?_⟩
    rw [hcontents, ListStore.push, contents_eq htv]
    rfl
  · intro u hparts
    obtain ⟨hu, hcause, hsafe⟩ := hparts
    refine ⟨hu, hcause.imp_right fun h => ⟨f, hv, h⟩, ?_⟩
    intro hs
    rw [hsafe hs]
    exact hr

end Members

section Moves

variable {v o : Nat} {f g : MyVec}

/-- `o` lets go of its buffer. -/
theorem Inv.release (inv : Inv m) :
    Inv { m with vecs := Function.update m.vecs o (some ⟨none, 0, 0, .array⟩) } ∧
      Memory.contents { m with vecs := Function.update m.vecs o (some ⟨none, 0, 0, .array⟩) } =
        Function.update m.contents o (some []) := by
  refine inv.update m.calls (fun _ _ _ _ _ _ => rfl) ?_ ?_ ?_
  · intro k hk
    cases hk
    exact sound_null _
  · intro k hk w j b _ _ _ hkb
    cases hk
    cases hkb
  · intro k hk
    cases hk
    rfl

/-- The buffer of `o` becomes the buffer of `v`, whose own is gone. -/
theorem Inv.moveMembers (inv : Inv m) (hvo : v ≠ o) (ho : m.vecs o = some g)
    {heap : BlockHeap T} (frame : Frame m heap v) (calls : Nat) :
    Inv ⟨heap, Function.update (Function.update m.vecs v (some g)) o (some ⟨none, 0, 0, .array⟩), calls⟩ ∧
      Memory.contents
        ⟨heap, Function.update (Function.update m.vecs v (some g)) o (some ⟨none, 0, 0, .array⟩), calls⟩ =
        m.contents.moveTo v o := by
  obtain ⟨hinv, hcontents⟩ := inv.release (o := o)
  have hgheap : ∀ a, g.data = some a → heap.block a = m.heap.block a := fun a ha =>
    frame o g a hvo.symm ho ha
  have hframe : Frame { m with vecs := Function.update m.vecs o (some ⟨none, 0, 0, .array⟩) } heap v := by
    intro w k a hw hk ha
    rcases update_eq_some hk with ⟨-, hnull⟩ | ⟨-, hk⟩
    · cases hnull
      cases ha
    · exact frame w k a hw hk ha
  have hupdate := hinv.update calls (f := some g) hframe ?_ ?_ ?_
  · rw [hcontents, Option.map_some, elements_congr hgheap, ← contents_eq ho,
      Function.update_comm hvo.symm, Function.update_comm hvo.symm] at hupdate
    exact hupdate
  · intro k hk
    cases hk
    exact (inv.sound ho).congr hgheap
  · intro k hk w j b hw hj hb hkb
    cases hk
    rcases update_eq_some hj with ⟨-, hnull⟩ | ⟨hwo, hj⟩
    · cases hnull
      cases hb
    · exact hwo (inv.owned hj ho hb hkb)
  · intro k hk
    cases hk
    exact inv.array ho

theorem construct_spec (inv : Inv m) :
    Ensures (construct v)
      (fun _ t => Inv t ∧ t.contents = Function.update m.contents v (some [])) R m := by
  rw [construct, ensures_setMembers]
  refine inv.update m.calls (fun _ _ _ _ _ _ => rfl) ?_ ?_ ?_
  · intro k hk
    cases hk
    exact sound_null _
  · intro k hk w j b _ _ _ hkb
    cases hk
    cases hkb
  · intro k hk
    cases hk
    rfl

/-- Once the buffer of `v` is deleted the others hold what they did. -/
theorem deleteArray_spec (inv : Inv m) (hv : m.vecs v = some f) :
    Ensures (deleteArray f.form f.data)
      (fun _ t => ∃ heap, t = { m with heap := heap } ∧ Frame m heap v) R m := by
  obtain ⟨slots, hslots, -⟩ := (inv.sound hv).buffer
  refine ensures_deleteArray (inv.array hv) hslots ?_ ?_
  · intro _
    exact ⟨m.heap, rfl, fun _ _ _ _ _ _ => rfl⟩
  · intro a ha
    refine ⟨_, rfl, ?_⟩
    intro w k b hw hk hb
    refine BlockHeap.block_remove_of_ne ?_
    intro hsame
    obtain rfl := hsame
    exact hw (inv.owned hk hv hb ha)

theorem destruct_spec (inv : Inv m) (hv : m.vecs v = some f) :
    Ensures (destruct v)
      (fun _ t => Inv t ∧ t.contents = Function.update m.contents v none) R m := by
  rw [destruct, ensures_bind, ensures_members]
  refine ⟨f, hv, ?_⟩
  apply (deleteArray_spec inv hv).andThen
  intro _ t hparts
  obtain ⟨heap, rfl, hframe⟩ := hparts
  rw [ensures_setMembers]
  refine inv.update m.calls hframe ?_ ?_ ?_
  · intro k hk
    cases hk
  · intro k hk
    cases hk
  · intro k hk
    cases hk

theorem moveConstruct_spec (inv : Inv m) (hv : m.vecs v = none) (ho : m.vecs o = some g) :
    Ensures (moveConstruct v o)
      (fun _ t => Inv t ∧ t.contents = m.contents.moveTo v o) R m := by
  have hvo : v ≠ o := by
    intro hsame
    obtain rfl := hsame
    rw [hv] at ho
    cases ho
  rw [moveConstruct, ensures_bind, ensures_members]
  refine ⟨g, ho, ?_⟩
  rw [ensures_bind, ensures_setMembers, ensures_setMembers]
  exact inv.moveMembers hvo ho (fun _ _ _ _ _ _ => rfl) m.calls

theorem moveAssign_spec (inv : Inv m) (hv : m.vecs v = some f) (ho : m.vecs o = some g) :
    Ensures (moveAssign v o)
      (fun _ t => Inv t ∧ t.contents = if v = o then m.contents else m.contents.moveTo v o) R m := by
  unfold moveAssign
  by_cases hvo : v = o
  · rw [if_pos hvo, if_pos hvo]
    exact ⟨inv, rfl⟩
  · rw [if_neg hvo, if_neg hvo, ensures_bind, ensures_members]
    refine ⟨f, hv, ?_⟩
    apply (deleteArray_spec inv hv).andThen
    intro _ t hparts
    obtain ⟨heap, rfl, hframe⟩ := hparts
    rw [ensures_bind, ensures_members]
    refine ⟨g, ho, ?_⟩
    rw [ensures_bind, ensures_setMembers, ensures_setMembers]
    exact inv.moveMembers hvo ho hframe m.calls

/-- The last element is given up. -/
theorem shrink_spec (inv : Inv m) (hv : m.vecs v = some f) :
    Ensures (setMembers v (some { f with size := f.size - 1 }))
      (fun _ t => Inv t ∧
        t.contents = Function.update m.contents v (some (elements m.heap f).dropLast)) R m := by
  have hsound := inv.sound hv
  have hlen := hsound.elements_length
  obtain ⟨slots, hslots, hcap⟩ := hsound.buffer
  have hsize := hsound.size_le
  have hlast : elements m.heap { f with size := f.size - 1 } = (elements m.heap f).dropLast := by
    rw [List.dropLast_eq_take, hlen, elements_eq hslots, List.take_take,
      Nat.min_eq_left (Nat.sub_le _ _)]
    exact elements_eq hslots
  rw [ensures_setMembers, ← hlast]
  refine inv.update m.calls (fun _ _ _ _ _ _ => rfl) ?_ ?_ ?_
  · intro k hk
    cases hk
    exact ⟨⟨slots, hslots, hcap⟩, Nat.le_trans (Nat.sub_le _ _) hsize, hsound.cap_lt⟩
  · intro k hk w j b hw hj hb hkb
    cases hk
    exact hw (inv.owned hj hv hb hkb)
  · intro k hk
    cases hk
    exact (inv.array hv : f.form = .array)

theorem indexAssign_spec (inv : Inv m) {i : Nat} (hv : m.vecs v = some f) (hi : i < f.size)
    (x : T) :
    Ensures (indexAssign E v i x)
      (fun _ t => Inv t ∧
        t.contents = Function.update m.contents v ((m.contents v).map fun xs => xs.set i x))
      (fun t => Inv t ∧ E.Throws ∧ t.contents = m.contents) m := by
  have hkeep := inv.keep (m.calls + 1) fun _ _ _ _ _ => rfl
  obtain ⟨a, slots, hdata, hblock, hlt, hset⟩ := inv.setElement x (m.calls + 1) hv hi
  rw [indexAssign, ensures_bind, ensures_members]
  refine ⟨f, hv, ?_⟩
  rw [ensures_bind]
  refine ensures_mayThrow ?_ fun hk => ⟨hkeep.1, ⟨_, hk⟩, hkeep.2⟩
  rw [contents_eq hv, Option.map_some]
  exact ensures_storeSlot hdata hblock hlt hset

end Moves

section Copies

variable {v : Nat} {f g : MyVec} {copy : Code (Memory T) MyVec} {xs : List T}

/-- A constructor takes the block that has been filled for it. -/
theorem constructFilled_spec (inv : Inv m) (hlen : xs.length = g.size) (hsize : g.size ≤ g.cap)
    (hcap : g.cap < 2 ^ 63)
    (hcopy : Ensures copy
      (fun f t => f = ⟨some m.heap.next, g.size, g.cap, .array⟩ ∧ Filled m t g.cap xs) R m) :
    Ensures (do let f ← copy; setMembers v (some f))
      (fun _ t => Inv t ∧ t.contents = Function.update m.contents v (some xs)) R m := by
  apply hcopy.andThen
  intro f t hboth
  obtain ⟨rfl, filled⟩ := hboth
  obtain ⟨slots, hblock, hslots, htake⟩ := filled.block
  rw [ensures_setMembers]
  have hadopt := inv.adopt (v := v) (g := ⟨some m.heap.next, g.size, g.cap, .array⟩) filled.vecs
    (inv.frame_of_lt filled.frame v) (Nat.le_refl _) hblock rfl hslots hsize hcap rfl
  rw [← hlen, htake, hlen] at hadopt
  exact hadopt

/-- An assignment gives up the old buffer for the block that has been filled for it. -/
theorem assignFilled_spec (inv : Inv m) (hv : m.vecs v = some f) (hlen : xs.length = g.size)
    (hsize : g.size ≤ g.cap) (hcap : g.cap < 2 ^ 63)
    (hcopy : Ensures copy
      (fun f t => f = ⟨some m.heap.next, g.size, g.cap, .array⟩ ∧ Filled m t g.cap xs) R m) :
    Ensures (do let h ← copy; let f ← members v; deleteArray f.form f.data; setMembers v (some h))
      (fun _ t => Inv t ∧ t.contents = Function.update m.contents v (some xs)) R m := by
  apply hcopy.andThen
  intro h t hboth
  obtain ⟨rfl, filled⟩ := hboth
  obtain ⟨slots, hblock, hslots, htake⟩ := filled.block
  rw [ensures_bind, ensures_members]
  refine ⟨f, by rw [filled.vecs, hv], ?_⟩
  obtain ⟨old, hold, -⟩ := (inv.sound hv).buffer
  have hleft : Memory.slotsAt t.heap f.data = some old :=
    (slotsAt_congr fun a ha => filled.frame a (inv.lt_next hv ha)).trans hold
  refine (inv.replace (g := ⟨some m.heap.next, g.size, g.cap, .array⟩) hv filled.vecs
    (inv.frame_of_lt filled.frame v) (Nat.le_refl _) hblock ⟨old, hleft⟩ rfl hslots hsize
    hcap rfl).mono ?_ fun _ h => h
  intro _ u hparts
  obtain ⟨hu, hcontents, -⟩ := hparts
  rw [← hlen, htake] at hcontents
  exact ⟨hu, hcontents⟩

/-- The list is copied into the block allocated for it. -/
theorem constructListed_spec (inv : Inv m) {il ds : List T} (hds : ds.length = il.length)
    (hcap : il.length < 2 ^ 63) (calls : Nat) :
    Ensures (do
        copyList E (some m.heap.next) il
        setMembers v (some ⟨some m.heap.next, il.length, il.length, .array⟩))
      (fun _ t => Inv t ∧ t.contents = Function.update m.contents v (some il))
      (fun t => Inv t ∧ E.Throws ∧ t.contents = m.contents) ⟨m.heap.alloc ds, m.vecs, calls⟩ := by
  have hframe : ∀ {t : Memory T}, Changed ⟨m.heap.alloc ds, m.vecs, calls⟩ t (· = m.heap.next) →
      ∀ a < m.heap.next, t.heap.block a = m.heap.block a := fun h a ha =>
    (h.frame a (Nat.ne_of_lt ha)).trans (BlockHeap.block_alloc_of_lt ha)
  refine Ensures.bind (listLoop BlockHeap.block_alloc_self (Nat.le_of_eq hds.symm)) ?_ ?_
  · intro _ t hboth
    obtain ⟨hchanged, hblock⟩ := hboth
    rw [List.drop_eq_nil_of_le (Nat.le_of_eq hds), List.append_nil] at hblock
    rw [ensures_setMembers]
    have hadopt := inv.adopt (v := v) (g := ⟨some m.heap.next, il.length, il.length, .array⟩)
      hchanged.vecs (inv.frame_of_lt (hframe hchanged) v) (Nat.le_refl _) hblock rfl rfl
      (Nat.le_refl _) hcap rfl
    rw [List.take_length] at hadopt
    exact hadopt
  · intro t hboth
    obtain ⟨hchanged, hthrows⟩ := hboth
    obtain ⟨hinv, hcontents⟩ := inv.discard hchanged.vecs (hframe hchanged)
    exact ⟨hinv, hthrows, hcontents⟩

/-- `reserve` gives up the old buffer once the elements are in the new one. -/
theorem reallocate_spec {n : Nat} (inv : Inv m) (hv : m.vecs v = some f) (hn : f.size ≤ n)
    (hcap : n < 2 ^ 63) {t : Memory T} (drained : Drained m t f)
    (hnew : ∃ slots, t.heap.block m.heap.next = some slots ∧ slots.length = n ∧
      slots.take f.size = elements m.heap f) :
    Ensures (do
        deleteArray f.form f.data
        setMembers v (some { f with data := some m.heap.next, cap := n, form := .array }))
      (fun _ u => Inv u ∧ u.contents = m.contents ∧
        u.vecs v = some { f with data := some m.heap.next, cap := n, form := .array }) R t := by
  obtain ⟨slots, hblock, hlen, htake⟩ := hnew
  obtain ⟨left, hleft, -⟩ := drained.left
  refine (inv.replace (g := { f with data := some m.heap.next, cap := n, form := .array }) hv drained.vecs
    (drained.frame_of inv hv) (Nat.le_refl _) hblock ⟨left, hleft⟩ rfl hlen hn hcap rfl).mono ?_
    fun _ h => h
  intro _ u hparts
  obtain ⟨hu, hcontents, hmembers⟩ := hparts
  rw [htake, ← contents_eq hv, Function.update_eq_self] at hcontents
  exact ⟨hu, hcontents, hmembers⟩

end Copies

theorem demand_of_wanted {op : Op T} {v : Nat}
    (hop : op.demand m = match m.vecs v with | none => 0 | some f => f.wanted)
    (h : ∃ f, m.vecs v = some f ∧ 2 ^ 63 ≤ f.wanted) : 2 ^ 63 ≤ op.demand m := by
  obtain ⟨f, hv, hwanted⟩ := h
  rw [hop, hv]
  exact hwanted

/-- A statement within its contract keeps the invariant and changes the lists the way
the reference does. One that throws has an element that does, or asks for too long an
array. -/
theorem perform_spec {C : Class T} {listed : List T → Prop} {safe : Prop}
    (correct : C.Correct E listed safe) (inv : Inv m) {op : Op T}
    (hop : op.contract m.sizes = true) (hlist : ∀ v il, op = .listConstruct v il → listed il) :
    Ensures (op.perform E C)
      (fun seen t => Inv t ∧ t.contents = op.apply E m.contents ∧ seen = op.reads m.contents)
      (fun t => Inv t ∧ (E.Throws ∨ 2 ^ 63 ≤ op.demand m)) m := by
  cases op with
  | construct v =>
    exact (construct_spec inv).bind (fun _ t h => ⟨h.1, h.2, rfl⟩) fun _ h => h
  | listConstruct v il =>
    exact (correct.listConstruct inv (sizes_isNone hop) (hlist v il rfl)).bind
      (fun _ t h => ⟨h.1, h.2, rfl⟩) fun t h => ⟨h.1, h.2.1⟩
  | copyConstruct v o =>
    obtain ⟨hv, ho⟩ := Bool.and_eq_true_iff.mp hop
    obtain ⟨g, ho⟩ := sizes_isSome ho
    exact (correct.copyConstruct inv (sizes_isNone hv) ho).bind
      (fun _ t h => ⟨h.1, h.2, rfl⟩) fun t h => ⟨h.1, Or.inl h.2.1⟩
  | moveConstruct v o =>
    obtain ⟨hv, ho⟩ := Bool.and_eq_true_iff.mp hop
    obtain ⟨g, ho⟩ := sizes_isSome ho
    exact (moveConstruct_spec inv (sizes_isNone hv) ho).bind
      (fun _ t h => ⟨h.1, h.2, rfl⟩) fun _ h => h
  | copyAssign v o =>
    obtain ⟨hv, ho⟩ := Bool.and_eq_true_iff.mp hop
    obtain ⟨f, hv⟩ := sizes_isSome hv
    obtain ⟨g, ho⟩ := sizes_isSome ho
    exact (correct.copyAssign inv hv ho).bind
      (fun _ t h => ⟨h.1, h.2, rfl⟩) fun t h => ⟨h.1, Or.inl h.2.1⟩
  | moveAssign v o =>
    obtain ⟨hv, ho⟩ := Bool.and_eq_true_iff.mp hop
    obtain ⟨f, hv⟩ := sizes_isSome hv
    obtain ⟨g, ho⟩ := sizes_isSome ho
    exact (moveAssign_spec inv hv ho).bind (fun _ t h => ⟨h.1, h.2, rfl⟩) fun _ h => h
  | destruct v =>
    obtain ⟨f, hv⟩ := sizes_isSome hop
    exact (destruct_spec inv hv).bind (fun _ t h => ⟨h.1, h.2, rfl⟩) fun _ h => h
  | reserve v n =>
    obtain ⟨f, hv⟩ := sizes_isSome hop
    exact (correct.reserve inv hv).bind (fun _ t h => ⟨h.1, h.2.1, rfl⟩) fun t h => ⟨h.1, h.2.1⟩
  | pushBack v a =>
    obtain ⟨hv, ha⟩ := Bool.and_eq_true_iff.mp hop
    refine (push_spec correct (K := (· = m.contents)) (sizes_isSome hv) rfl (copy_spec inv ha)).bind
      (fun _ t h => ⟨h.1, h.2, rfl⟩) fun t h => ⟨h.1, h.2.1.imp_right ?_⟩
    exact demand_of_wanted rfl
  | pushBackMove v a =>
    obtain ⟨hv, ha⟩ := Bool.and_eq_true_iff.mp hop
    have hmove := (move_spec (E := E) inv ha).mono (fun _ _ h => h)
      (fun t h => (⟨h.1, h.2.1, trivial⟩ : Inv t ∧ E.Throws ∧ True))
    refine (push_spec correct (K := fun _ => True) (sizes_isSome hv) trivial hmove).bind
      (fun _ t h => ⟨h.1, h.2, rfl⟩) fun t h => ⟨h.1, h.2.1.imp_right ?_⟩
    exact demand_of_wanted rfl
  | emplaceBack v args make =>
    obtain ⟨hv, ha⟩ := Bool.and_eq_true_iff.mp hop
    have hconstruct := (constructFrom_spec (E := E) inv make (List.all_eq_true.mp ha)).mono
      (fun _ _ h => h) (fun t h => (⟨h.1, h.2.1, trivial⟩ : Inv t ∧ E.Throws ∧ True))
    refine (push_spec correct (K := fun _ => True) (sizes_isSome hv) trivial hconstruct).bind
      (fun _ t h => ⟨h.1, h.2, rfl⟩) fun t h => ⟨h.1, h.2.1.imp_right ?_⟩
    exact demand_of_wanted rfl
  | popBack v =>
    obtain ⟨f, hv, hpos⟩ := below_iff.mp hop
    refine (correct.popBack inv hv hpos).bind (fun _ t h => ⟨h.1, ?_, rfl⟩) fun _ h => h.elim
    rw [h.2, Op.apply, contents_eq hv, Option.map_some]
  | index v i =>
    obtain ⟨f, hv, hi⟩ := below_iff.mp hop
    obtain ⟨x, hcontents, hx, hload⟩ := ensures_slot (inv.sound hv) hv hi
    rw [Op.perform, index, ensures_bind, ensures_bind, ensures_members]
    refine ⟨f, hv, hload ⟨inv, rfl, ?_⟩⟩
    rw [Op.reads, hcontents, Option.bind_some, hx, Option.toList_some]
  | indexAssign v i x =>
    obtain ⟨f, hv, hi⟩ := below_iff.mp hop
    exact (indexAssign_spec inv hv hi x).bind
      (fun _ t h => ⟨h.1, h.2, rfl⟩) fun t h => ⟨h.1, Or.inl h.2.1⟩

/-- What a step of a program can be: the statement of the reference, or an exception
that an element or too long an array is the cause of. -/
theorem step_effect {C : Class T} {listed : List T → Prop} {safe : Prop}
    (correct : C.Correct E listed safe) (inv : Inv m) {op : Op T} {t : Memory T}
    {seen : List (Event T)} (hlist : ∀ v il, op = .listConstruct v il → listed il)
    (hstep : (machine E C).step m op = some (t, seen)) :
    Inv t ∧ ((reference E).step m.contents op = some (t.contents, seen) ∨
      seen = [.threw] ∧ (E.Throws ∨ 2 ^ 63 ≤ op.demand m)) := by
  have hsizes : m.sizes = m.contents.sizes := inv.sizes_eq
  by_cases hop : op.contract m.sizes = true
  · have hspec := perform_spec correct inv hop hlist
    simp only [machine, if_pos hop] at hstep
    simp only [reference, ← hsizes, if_pos hop]
    rcases hspec.cases with ⟨reads, u, hdone, hu, hcontents, hreads⟩ | ⟨u, hthrew, hu, hcause⟩
    · rw [hdone] at hstep
      cases hstep
      exact ⟨hu, Or.inl (by rw [hcontents, hreads])⟩
    · rw [hthrew] at hstep
      cases hstep
      exact ⟨hu, Or.inr ⟨rfl, hcause⟩⟩
  · simp only [machine, if_neg hop] at hstep
    cases hstep

theorem reference_contract {r s : ListStore T} {op : Op T} {seen : List (Event T)}
    (hstep : (reference E).step r op = some (s, seen)) : op.contract r.sizes = true := by
  by_contra hop
  simp only [reference, if_neg hop] at hstep
  cases hstep

/-- A statement within its contract is executed, whatever comes of it. -/
theorem exists_step {C : Class T} {op : Op T} (hop : op.contract m.sizes = true) :
    ∃ t seen, (machine E C).step m op = some (t, seen) := by
  simp only [machine, if_pos hop]
  cases op.perform E C m with
  | done seen t => exact ⟨t, _, rfl⟩
  | threw t => exact ⟨t, _, rfl⟩
  | fault => exact ⟨m, _, rfl⟩

theorem reference_values {r s : ListStore T} {op : Op T} {seen : List (Event T)}
    (hstep : (reference E).step r op = some (s, seen)) : ∃ xs : List T, seen = xs.map .value := by
  unfold reference at hstep
  dsimp only at hstep
  split at hstep
  · cases hstep
    exact ⟨_, rfl⟩
  · cases hstep

/-- Neither the reference nor an exception is a fault. -/
theorem not_mem_of_effect {trace seen : List (Event T)} {r s : ListStore T} {op : Op T} {P : Prop}
    (h : Event.fault ∉ trace)
    (heffect : (reference E).step r op = some (s, seen) ∨ seen = [.threw] ∧ P) :
    Event.fault ∉ trace ++ seen := by
  rw [List.mem_append]
  rintro (hmem | hmem)
  · exact h hmem
  · rcases heffect with hreference | ⟨rfl, -⟩
    · obtain ⟨xs, rfl⟩ := reference_values hreference
      simp at hmem
    · simp at hmem

end CppCodes.Source.StdVector
