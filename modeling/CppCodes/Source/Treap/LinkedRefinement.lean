import CppCodes.Source.Treap.Representation

/-!
# The linked treap computes the treap of values

Each member leaves the tree that the function on values computes, and does nothing
undefined. Nothing here depends on how the comparison orders the keys.
-/

set_option autoImplicit false

namespace CppCodes.Source.Treap.Linked

open Library Library.Code

variable {K V : Type}

section Members

variable {m : Memory K V} (C : Client K V)

/-- `insert_impl` and `erase_impl` compute `result`: the subtree, and what `flag` says. -/
structure Computes (m : Memory K V) (addrs : List Nat) (p : Option Nat) (t : Node K V)
    (drawn : Nat) (flag : Bool) (u : Memory K V) : Prop where
  leaves : Leaves m.heap addrs u.heap p t
  root : u.root = m.root
  size : u.size = m.size
  drawn : u.drawn = drawn
  flag : u.flag = flag

theorem newNode_spec (key : K) (value : V) :
    Ensures (newNode C key value) (fun p u => Computes m [] (some p)
      (.node .nil key value (C.draw m.drawn) .nil) (m.drawn + 1) m.flag u) (fun _ => True) m := by
  rw [newNode, ensures_bind]
  apply ensures_mayThrow
  simp only [ensures_bind, ensures_read, ensures_modify]
  apply ensures_mayThrow
  apply ensures_mayThrow
  exact ⟨leaves_alloc key value _, rfl, rfl, rfl, rfl⟩

theorem assignValue_spec {a : Nat} {c : Cell K V} {l r : Node K V} {la ra : List Nat}
    (block : m.heap.block a = some [c]) (left : Holds m.heap c.left l la)
    (right : Holds m.heap c.right r ra) (nodup : (la ++ a :: ra).Nodup) (value : V) :
    Ensures (assignValue C a value) (fun _ u => Computes m (la ++ a :: ra) (some a)
      (.node l c.key value c.priority r) m.drawn m.flag u) (fun _ => True) m := by
  rw [assignValue, ensures_bind, ensures_cell block]
  simp only [ensures_bind, ensures_read, ensures_modify]
  cases C.throwsAt .assignValue m.calls with
  | true =>
    simp only [if_true, ensures_bind, ensures_modify, ensures_raise]
    exact (ensures_setCell (m := { m with calls := m.calls + 1 }) block _).mpr trivial
  | false =>
    apply (ensures_setCell (m := { m with calls := m.calls + 1 }) block _).mpr
    exact ⟨Holds.setValue block left right nodup value, rfl, rfl, rfl, rfl⟩

theorem count_node (l : Node K V) (k : K) (v : V) (q : UInt32) (r : Node K V) :
    (Node.node l k v q r).count = l.count + r.count + 1 := rfl

theorem insertImpl_spec (assignOnMatch : Bool) (key : K) (value : V) {depth : Nat} {t : Node K V}
    {p : Option Nat} {addrs : List Nat} (hold : Holds m.heap p t addrs) (nodup : addrs.Nodup)
    (hdepth : t.count < depth) :
    Ensures (insertImpl C assignOnMatch key value depth p) (fun p' u =>
      Computes m addrs p' (t.insertImpl C.comp assignOnMatch key value (C.draw m.drawn)).1
        (m.drawn + (t.insertImpl C.comp assignOnMatch key value (C.draw m.drawn)).2.toNat)
        (t.insertImpl C.comp assignOnMatch key value (C.draw m.drawn)).2 u) (fun _ => True) m := by
  induction depth generalizing m t p addrs with
  | zero => exact absurd hdepth (Nat.not_lt_zero _)
  | succ depth ih =>
    cases hold with
    | nil =>
      apply (newNode_spec C (m := { m with flag := true }) key value).andThen
      intro a u hu
      exact ⟨hu.leaves, hu.root, hu.size, hu.drawn, hu.flag⟩
    | node block left right =>
      rename_i a c l r la ra
      rw [count_node] at hdepth
      obtain ⟨hla, hra, hleft, hright, hapart⟩ := nodup_around nodup
      rw [insertImpl, ensures_bind, ensures_cell block, ensures_bind, Node.insertImpl]
      dsimp only
      apply ensures_compare
      cases hbefore : C.comp key c.key with
      | true =>
        rw [if_pos rfl, if_pos rfl]
        have hrec := ih (m := { m with calls := m.calls + 1 }) left hla (by omega)
        apply hrec.andThen
        intro l' u hu
        have hblock := hu.leaves.block_eq block hleft
        rw [ensures_bind, ensures_setLeft hblock]
        have hset := hu.leaves.setLeft block right nodup
        have hrestore := hset.restoreLeft (R := fun _ => True)
          (m := { u with heap := u.heap.write a [{ c with left := l' }] })
          (BlockHeap.block_write_self hblock)
        apply hrestore.weaken
        intro p' w hw
        exact ⟨hw.1, hw.2.root.trans hu.root, hw.2.size.trans hu.size, hw.2.drawn.trans hu.drawn,
          hw.2.flag.trans hu.flag⟩
      | false =>
        rw [if_neg Bool.false_ne_true, if_neg Bool.false_ne_true, ensures_bind,
          ensures_cell (m := { m with calls := m.calls + 1 }) block, ensures_bind]
        apply ensures_compare
        cases hafter : C.comp c.key key with
        | true =>
          rw [if_pos rfl, if_pos rfl]
          have hrec := ih (m := { m with calls := m.calls + 1 + 1 }) right hra (by omega)
          apply hrec.andThen
          intro r' u hu
          have hblock := hu.leaves.block_eq block hright
          rw [ensures_bind, ensures_setRight hblock]
          have hset := hu.leaves.setRight block left nodup
          have hrestore := hset.restoreRight (R := fun _ => True)
            (m := { u with heap := u.heap.write a [{ c with right := r' }] })
            (BlockHeap.block_write_self hblock)
          apply hrestore.weaken
          intro p' w hw
          exact ⟨hw.1, hw.2.root.trans hu.root, hw.2.size.trans hu.size,
            hw.2.drawn.trans hu.drawn, hw.2.flag.trans hu.flag⟩
        | false =>
          rw [if_neg Bool.false_ne_true, if_neg Bool.false_ne_true]
          cases assignOnMatch with
          | false =>
            have hsame := (Holds.node block left right).leaves nodup
            exact ⟨hsame, rfl, rfl, rfl, rfl⟩
          | true =>
            have hassign := assignValue_spec C (m := { m with calls := m.calls + 1 + 1 }) block
              left right nodup value
            apply hassign.andThen
            intro _ u hu
            exact ⟨hu.leaves, hu.root, hu.size, hu.drawn, rfl⟩

theorem merge_spec {R : Memory K V → Prop} {depth : Nat} {s t : Node K V} {p q : Option Nat}
    {sa ta : List Nat} (first : Holds m.heap p s sa) (second : Holds m.heap q t ta)
    (nodup : (sa ++ ta).Nodup) (hdepth : s.count + t.count < depth) :
    Ensures (merge depth p q) (fun p' u => Leaves m.heap (sa ++ ta) u.heap p' (s.merge t) ∧
      Untouched m u) R m := by
  induction depth generalizing s t p q sa ta with
  | zero => exact absurd hdepth (Nat.not_lt_zero _)
  | succ depth ih =>
    cases first with
    | nil => exact ⟨second.leaves nodup, Untouched.refl m⟩
    | node blocka lefta righta =>
      rename_i a ca la ra laa raa
      cases second with
      | nil =>
        rw [List.append_nil] at nodup ⊢
        exact ⟨(Holds.node blocka lefta righta).leaves nodup, Untouched.refl m⟩
      | node blockb leftb rightb =>
        rename_i b cb lb rb lab rab
        rw [count_node, count_node] at hdepth
        rw [merge, ensures_bind, ensures_cell blocka, ensures_bind, ensures_cell blockb,
          Node.merge_node]
        by_cases htop : ca.priority > cb.priority
        · rw [if_pos htop, if_pos htop]
          have hgiven : (laa ++ a :: raa) ++ (lab ++ b :: rab) =
              laa ++ a :: (raa ++ (lab ++ b :: rab)) := by simp
          rw [hgiven] at nodup ⊢
          obtain ⟨ha, hrest⟩ := List.nodup_cons.mp (List.nodup_append'.mp nodup).2.1
          have hrec := ih righta (Holds.node blockb leftb rightb) hrest
            (by rw [count_node]; omega)
          apply hrec.andThen
          intro r' u hu
          rw [ensures_bind, ensures_setRight (hu.1.block_eq blocka ha)]
          have hset := hu.1.setRight blocka lefta nodup
          exact ⟨hset, hu.2.trans (Untouched.heap u _)⟩
        · rw [if_neg htop, if_neg htop]
          have hgiven : (laa ++ a :: raa) ++ (lab ++ b :: rab) =
              ((laa ++ a :: raa) ++ lab) ++ b :: rab := by simp
          rw [hgiven] at nodup ⊢
          obtain ⟨hrest, -, hapart⟩ := List.nodup_append'.mp nodup
          have hb : b ∉ (laa ++ a :: raa) ++ lab := fun hin => hapart hin List.mem_cons_self
          have hrec := ih (Holds.node blocka lefta righta) leftb hrest
            (by rw [count_node]; omega)
          apply hrec.andThen
          intro l' u hu
          rw [ensures_bind, ensures_setLeft (hu.1.block_eq blockb hb)]
          have hset := hu.1.setLeft blockb rightb nodup
          exact ⟨hset, hu.2.trans (Untouched.heap u _)⟩

theorem eraseImpl_spec (key : K) {depth : Nat} {t : Node K V} {p : Option Nat} {addrs : List Nat}
    (hold : Holds m.heap p t addrs) (nodup : addrs.Nodup) (hdepth : t.count < depth)
    (hflag : m.flag = false) :
    Ensures (eraseImpl C key depth p) (fun p' u =>
      Computes m addrs p' (t.eraseImpl C.comp key).1 m.drawn (t.eraseImpl C.comp key).2 u)
      (fun _ => True) m := by
  induction depth generalizing m t p addrs with
  | zero => exact absurd hdepth (Nat.not_lt_zero _)
  | succ depth ih =>
    cases hold with
    | nil => exact ⟨Holds.nil.leaves nodup, rfl, rfl, rfl, hflag⟩
    | node block left right =>
      rename_i a c l r la ra
      rw [count_node] at hdepth
      obtain ⟨hla, hra, hleft, hright, hapart⟩ := nodup_around nodup
      rw [eraseImpl, ensures_bind, ensures_cell block, ensures_bind, Node.eraseImpl]
      dsimp only
      apply ensures_compare
      cases hbefore : C.comp key c.key with
      | true =>
        rw [if_pos rfl, if_pos rfl]
        have hrec := ih (m := { m with calls := m.calls + 1 }) left hla (by omega) hflag
        apply hrec.andThen
        intro l' u hu
        rw [ensures_bind, ensures_setLeft (hu.leaves.block_eq block hleft)]
        have hset := hu.leaves.setLeft block right nodup
        exact ⟨hset, hu.root, hu.size, hu.drawn, hu.flag⟩
      | false =>
        rw [if_neg Bool.false_ne_true, if_neg Bool.false_ne_true, ensures_bind,
          ensures_cell (m := { m with calls := m.calls + 1 }) block, ensures_bind]
        apply ensures_compare
        cases hafter : C.comp c.key key with
        | true =>
          rw [if_pos rfl, if_pos rfl]
          have hrec := ih (m := { m with calls := m.calls + 1 + 1 }) right hra (by omega) hflag
          apply hrec.andThen
          intro r' u hu
          rw [ensures_bind, ensures_setRight (hu.leaves.block_eq block hright)]
          have hset := hu.leaves.setRight block left nodup
          exact ⟨hset, hu.root, hu.size, hu.drawn, hu.flag⟩
        | false =>
          rw [if_neg Bool.false_ne_true, if_neg Bool.false_ne_true, ensures_bind]
          apply ensures_modify.mpr
          have hchildren : (la ++ ra).Nodup := List.nodup_append'.mpr ⟨hla, hra, hapart⟩
          have ha : a ∉ la ++ ra := by simp [hleft, hright]
          rw [ensures_bind,
            ensures_cell (m := { m with calls := m.calls + 1 + 1, flag := true }) block]
          have hmerge := merge_spec (R := fun _ => True)
            (m := { m with calls := m.calls + 1 + 1, flag := true }) left right hchildren
            (Nat.lt_of_succ_lt_succ hdepth)
          apply hmerge.andThen
          intro merged u hu
          rw [ensures_bind, ensures_deleteNode (hu.1.block_eq block ha)]
          exact ⟨hu.1.delete block nodup, hu.2.root, hu.2.size, hu.2.drawn, hu.2.flag⟩

theorem findFrom_spec (key : K) {depth : Nat} {t : Node K V} {p : Option Nat} {addrs : List Nat}
    (hold : Holds m.heap p t addrs) (hdepth : t.count < depth) :
    Ensures (findFrom C key depth p) (fun found u => found = t.find C.comp key ∧
      u.heap = m.heap ∧ Untouched m u) (fun _ => True) m := by
  induction depth generalizing m t p addrs with
  | zero => exact absurd hdepth (Nat.not_lt_zero _)
  | succ depth ih =>
    cases hold with
    | nil => exact ⟨rfl, rfl, Untouched.refl m⟩
    | node block left right =>
      rename_i a c l r la ra
      rw [count_node] at hdepth
      rw [findFrom, ensures_bind, ensures_cell block, ensures_bind, Node.find]
      apply ensures_compare
      cases hbefore : C.comp key c.key with
      | true =>
        have hrec := ih (m := { m with calls := m.calls + 1 }) left (by omega)
        apply hrec.weaken
        intro found u hu
        exact ⟨hu.1, hu.2.1, ⟨hu.2.2.root, hu.2.2.size, hu.2.2.drawn, hu.2.2.flag⟩⟩
      | false =>
        rw [if_neg Bool.false_ne_true, if_neg Bool.false_ne_true, ensures_bind,
          ensures_cell (m := { m with calls := m.calls + 1 }) block, ensures_bind]
        apply ensures_compare
        cases hafter : C.comp c.key key with
        | true =>
          have hrec := ih (m := { m with calls := m.calls + 1 + 1 }) right (by omega)
          apply hrec.weaken
          intro found u hu
          exact ⟨hu.1, hu.2.1, ⟨hu.2.2.root, hu.2.2.size, hu.2.2.drawn, hu.2.2.flag⟩⟩
        | false => exact ⟨rfl, rfl, ⟨rfl, rfl, rfl, rfl⟩⟩

/-- Every node is deleted once, and none is read after its deletion. -/
theorem destroySubtree_spec {R : Memory K V → Prop} {depth : Nat} {t : Node K V} {p : Option Nat}
    {addrs : List Nat} (hold : Holds m.heap p t addrs) (nodup : addrs.Nodup)
    (hdepth : t.count < depth) :
    Ensures (destroySubtree depth p) (fun _ u => Leaves m.heap addrs u.heap none .nil ∧
      Untouched m u) R m := by
  induction depth generalizing m t p addrs with
  | zero => exact absurd hdepth (Nat.not_lt_zero _)
  | succ depth ih =>
    cases hold with
    | nil => exact ⟨Holds.nil.leaves nodup, Untouched.refl m⟩
    | node block left right =>
      rename_i a c l r la ra
      rw [count_node] at hdepth
      obtain ⟨hla, hra, hleft, hright, hapart⟩ := nodup_around nodup
      rw [destroySubtree, ensures_bind, ensures_cell block]
      apply (ih left hla (by omega)).andThen
      intro _ u hu
      have hblock := hu.1.block_eq block hleft
      have hright' : Holds u.heap c.right r ra := by
        apply right.frame
        intro b hb
        exact hu.1.outside b (right.lt_next b hb) fun hin => hapart hin hb
      rw [ensures_bind, ensures_cell hblock]
      apply (ih hright' hra (by omega)).andThen
      intro _ w hw
      rw [ensures_deleteNode (hw.1.block_eq hblock hright)]
      refine ⟨⟨⟨[], Holds.nil, List.nodup_nil, by simp⟩, ?_,
        Nat.le_trans hu.1.next hw.1.next⟩, hu.2.trans (hw.2.trans (Untouched.heap w _))⟩
      intro b hb hout
      simp only [List.mem_append, List.mem_cons, not_or] at hout
      rw [BlockHeap.block_remove_of_ne hout.2.1,
        hw.1.outside b (Nat.lt_of_lt_of_le hb hu.1.next) hout.2.2, hu.1.outside b hb hout.1]

end Members

/-- The map of values that the linked one stands for. -/
structure Represents (m : Memory K V) (t : TreapMap K V) : Prop where
  tree : ∃ addrs, Holds m.heap m.root t.root addrs ∧ addrs.Nodup
  size : m.size = t.size
  count : t.size = t.root.count
  drawn : m.drawn = t.drawn

section Maps

variable (comp : K → K → Bool)

theorem count_rotateLeft (t : Node K V) : t.rotateLeft.count = t.count := by
  rw [Node.count_eq, Node.entries_rotateLeft, ← Node.count_eq]

theorem count_rotateRight (t : Node K V) : t.rotateRight.count = t.count := by
  rw [Node.count_eq, Node.entries_rotateRight, ← Node.count_eq]

theorem count_insertImpl (assignOnMatch : Bool) (key : K) (value : V) (q : UInt32)
    (t : Node K V) : (t.insertImpl comp assignOnMatch key value q).1.count =
      t.count + (t.insertImpl comp assignOnMatch key value q).2.toNat := by
  induction t with
  | nil => rfl
  | node l k v p r ihl ihr =>
    rw [Node.insertImpl, count_node]
    dsimp only
    split
    · have hnode : ∀ b : Bool, (if b then
          (Node.node (l.insertImpl comp assignOnMatch key value q).1 k v p r).rotateRight
          else .node (l.insertImpl comp assignOnMatch key value q).1 k v p r).count =
          (l.insertImpl comp assignOnMatch key value q).1.count + r.count + 1 := by
        intro b
        cases b with
        | false => rfl
        | true => exact count_rotateRight _
      rw [hnode, ihl]
      dsimp only
      omega
    · split
      · have hnode : ∀ b : Bool, (if b then
            (Node.node l k v p (r.insertImpl comp assignOnMatch key value q).1).rotateLeft
            else .node l k v p (r.insertImpl comp assignOnMatch key value q).1).count =
            l.count + (r.insertImpl comp assignOnMatch key value q).1.count + 1 := by
          intro b
          cases b with
          | false => rfl
          | true => exact count_rotateLeft _
        rw [hnode, ihr]
        dsimp only
        omega
      · rfl

theorem count_merge (s t : Node K V) : (s.merge t).count = s.count + t.count := by
  simp [Node.count_eq, Node.entries_eq_slots, Node.slots_merge]

theorem count_eraseImpl (key : K) (t : Node K V) :
    (t.eraseImpl comp key).1.count + (t.eraseImpl comp key).2.toNat = t.count := by
  induction t with
  | nil => rfl
  | node l k v p r ihl ihr =>
    rw [Node.eraseImpl, count_node]
    dsimp only
    split
    · dsimp only
      rw [count_node]
      omega
    · split
      · dsimp only
        rw [count_node]
        omega
      · rw [count_merge]
        rfl

end Maps

section Map

variable {m : Memory K V} {t : TreapMap K V} (C : Client K V)

theorem represents_start : Represents ({} : Memory K V) ({} : TreapMap K V) where
  tree := ⟨[], Holds.nil, List.nodup_nil⟩
  size := rfl
  count := rfl
  drawn := rfl

theorem Represents.depth (h : Represents m t) : t.root.count < m.size + 1 := by
  rw [h.size, h.count]
  exact Nat.lt_succ_self _

theorem Represents.insertWith (h : Represents m t) (assignOnMatch : Bool) (key : K) (value : V) :
    Ensures (insertWith C assignOnMatch key value) (fun b u =>
      b = (t.insertWith C.comp C.draw assignOnMatch key value).2 ∧
        Represents u (t.insertWith C.comp C.draw assignOnMatch key value).1) (fun _ => True) m := by
  obtain ⟨addrs, hold, nodup⟩ := h.tree
  have hcount := count_insertImpl C.comp assignOnMatch key value (C.draw m.drawn) t.root
  have hspec := insertImpl_spec C (m := { m with flag := false }) assignOnMatch key value hold nodup
    h.depth
  unfold TreapMap.insertWith
  rw [← h.drawn]
  apply hspec.andThen
  intro root u hu
  obtain ⟨now, hnow, hnodup, -⟩ := hu.leaves.tree
  have hsize : u.size = t.size := hu.size.trans h.size
  have hdrawn := hu.drawn
  simp only [ensures_bind, ensures_modify, ensures_read, hu.flag]
  dsimp only at hdrawn ⊢
  cases hinserted : (t.root.insertImpl C.comp assignOnMatch key value (C.draw m.drawn)).2 with
  | true =>
    rw [hinserted] at hcount hdrawn
    refine ⟨rfl, ⟨now, hnow, hnodup⟩, congrArg (· + 1) hsize, ?_, hdrawn⟩
    simp [hcount, h.count]
  | false =>
    rw [hinserted] at hcount hdrawn
    refine ⟨rfl, ⟨now, hnow, hnodup⟩, hsize, ?_, hdrawn⟩
    simp [hcount, h.count]

theorem Represents.erase (h : Represents m t) (key : K) :
    Ensures (erase C key) (fun b u => b = (t.erase C.comp key).2 ∧
      Represents u (t.erase C.comp key).1) (fun _ => True) m := by
  obtain ⟨addrs, hold, nodup⟩ := h.tree
  have hcount := count_eraseImpl C.comp key t.root
  have hspec := eraseImpl_spec C (m := { m with flag := false }) key hold nodup h.depth rfl
  apply hspec.andThen
  intro root u hu
  obtain ⟨now, hnow, hnodup, -⟩ := hu.leaves.tree
  have hsize : u.size = t.size := hu.size.trans h.size
  simp only [ensures_bind, ensures_modify, ensures_read, hu.flag]
  unfold TreapMap.erase
  dsimp only
  cases hremoved : (t.root.eraseImpl C.comp key).2 with
  | true =>
    rw [hremoved] at hcount
    refine ⟨rfl, ⟨now, hnow, hnodup⟩, congrArg (· - 1) hsize, ?_, hu.drawn.trans h.drawn⟩
    rw [if_pos rfl]
    simp [h.count, ← hcount]
  | false =>
    rw [hremoved] at hcount
    refine ⟨rfl, ⟨now, hnow, hnodup⟩, hsize, ?_, hu.drawn.trans h.drawn⟩
    simp [h.count, ← hcount]

theorem Represents.find (h : Represents m t) (key : K) :
    Ensures (find C key) (fun found u => found = t.find C.comp key ∧ Represents u t)
      (fun _ => True) m := by
  obtain ⟨addrs, hold, nodup⟩ := h.tree
  apply (findFrom_spec C key hold h.depth).weaken
  intro found u hu
  refine ⟨hu.1, ⟨addrs, ?_, nodup⟩, hu.2.2.size.trans h.size, h.count, hu.2.2.drawn.trans h.drawn⟩
  rw [hu.2.1, hu.2.2.root]
  exact hold

theorem Represents.clear (h : Represents m t) {R : Memory K V → Prop} :
    Ensures clear (fun _ u => Represents u t.clear) R m := by
  obtain ⟨addrs, hold, nodup⟩ := h.tree
  apply (destroySubtree_spec hold nodup h.depth).andThen
  intro _ u hu
  exact ⟨⟨[], Holds.nil, List.nodup_nil⟩, rfl, rfl, hu.2.drawn.trans h.drawn⟩

/-- Where it returns, every operation does what it does on values. -/
theorem Represents.perform (h : Represents m t) (op : Op K V) :
    Ensures (perform C op) (fun r u => r = (t.apply C.comp C.draw op).2 ∧
      Represents u (t.apply C.comp C.draw op).1) (fun _ => True) m := by
  cases op with
  | insert key value =>
    apply (h.insertWith C false key value).andThen
    intro b u hu
    exact ⟨congrArg Result.flag hu.1, hu.2⟩
  | insertOrAssign key value =>
    apply (h.insertWith C true key value).andThen
    intro b u hu
    exact ⟨congrArg Result.flag hu.1, hu.2⟩
  | erase key =>
    apply (h.erase C key).andThen
    intro b u hu
    exact ⟨congrArg Result.flag hu.1, hu.2⟩
  | find key =>
    apply (h.find C key).andThen
    intro found u hu
    exact ⟨congrArg Result.value hu.1, hu.2⟩
  | contains key =>
    apply (h.find C key).andThen
    intro found u hu
    exact ⟨congrArg (fun found => Result.flag found.isSome) hu.1, hu.2⟩
  | size => exact ⟨congrArg Result.count h.size, h⟩
  | empty => exact ⟨congrArg (fun n => Result.flag (n == 0)) h.size, h⟩
  | clear =>
    apply (h.clear (R := fun _ => True)).andThen
    intro _ u hu
    exact ⟨rfl, hu⟩

end Map

end CppCodes.Source.Treap.Linked
