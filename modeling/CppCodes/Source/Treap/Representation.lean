import CppCodes.Source.Treap.LinkedTreap
import CppCodes.Source.Treap.Priorities

/-!
# Trees in memory

`Holds` reads a tree off the nodes in memory. A member is given the nodes of its subtree
and leaves a tree in nodes that were its own or are new; what it was not given stays as
it was.
-/

set_option autoImplicit false

namespace CppCodes.Source.Treap.Linked

open Library Library.Code

variable {K V : Type}

/-- The tree `t` stands at `p`, its nodes from left to right at the addresses `addrs`. -/
inductive Holds (h : BlockHeap (Cell K V)) : Option Nat → Node K V → List Nat → Prop where
  | nil : Holds h none .nil []
  | node {a : Nat} {c : Cell K V} {l r : Node K V} {la ra : List Nat}
      (block : h.block a = some [c]) (left : Holds h c.left l la) (right : Holds h c.right r ra) :
      Holds h (some a) (.node l c.key c.value c.priority r) (la ++ a :: ra)

/-- From the nodes `addrs` of `h` the tree `t` has been made, which stands at `p`. -/
structure Leaves (h : BlockHeap (Cell K V)) (addrs : List Nat) (h' : BlockHeap (Cell K V))
    (p : Option Nat) (t : Node K V) : Prop where
  tree : ∃ now, Holds h' p t now ∧ now.Nodup ∧ ∀ a ∈ now, a ∈ addrs ∨ h.next ≤ a
  outside : ∀ a < h.next, a ∉ addrs → h'.block a = h.block a
  next : h.next ≤ h'.next

section Heap

variable {h h' : BlockHeap (Cell K V)} {p q : Option Nat} {t l r : Node K V}
  {addrs la ra : List Nat} {a : Nat} {c : Cell K V}

theorem Holds.frame (hold : Holds h p t addrs) (same : ∀ a ∈ addrs, h'.block a = h.block a) :
    Holds h' p t addrs := by
  induction hold with
  | nil => exact Holds.nil
  | node block _ _ ihl ihr =>
    apply Holds.node
    · rw [same _ (by simp), block]
    · exact ihl fun b hb => same b (by simp [hb])
    · exact ihr fun b hb => same b (by simp [hb])

theorem Holds.lt_next (hold : Holds h p t addrs) : ∀ a ∈ addrs, a < h.next := by
  induction hold with
  | nil => simp
  | node block _ _ ihl ihr =>
    intro b hb
    rcases List.mem_append.mp hb with hl | hmid
    · exact ihl b hl
    · rcases List.mem_cons.mp hmid with rfl | hr
      · exact BlockHeap.lt_next block
      · exact ihr b hr

theorem Holds.leaves (hold : Holds h p t addrs) (nodup : addrs.Nodup) :
    Leaves h addrs h p t where
  tree := ⟨addrs, hold, nodup, fun _ ha => Or.inl ha⟩
  outside _ _ _ := rfl
  next := Nat.le_refl _

/-- Code that is given the nodes another one left. -/
theorem Leaves.trans {h₁ : BlockHeap (Cell K V)} {t₁ : Node K V} {now : List Nat}
    (first : Leaves h addrs h₁ p t₁) (own : ∀ a ∈ now, a ∈ addrs ∨ h.next ≤ a)
    (second : Leaves h₁ now h' q t) : Leaves h addrs h' q t := by
  obtain ⟨later, hold, nodup, own'⟩ := second.tree
  refine ⟨⟨later, hold, nodup, ?_⟩, ?_, Nat.le_trans first.next second.next⟩
  · intro b hb
    rcases own' b hb with hnow | hnew
    · exact own b hnow
    · exact Or.inr (Nat.le_trans first.next hnew)
  · intro b hlt hout
    have hnow : b ∉ now := by
      intro hb
      rcases own b hb with hin | hnew
      · exact hout hin
      · exact absurd hnew (Nat.not_le.mpr hlt)
    rw [second.outside b (Nat.lt_of_lt_of_le hlt first.next) hnow, first.outside b hlt hout]

theorem Holds.write (hold : Holds h p t addrs) {c' : Cell K V} (ha : a ∉ addrs) :
    Holds (h.write a [c']) p t addrs := by
  apply hold.frame
  intro b hb
  apply BlockHeap.block_write_of_ne
  rintro rfl
  exact ha hb

/-- Code that was not given the node `a` left it alone. -/
theorem Leaves.block_eq (done : Leaves h addrs h' p t) (block : h.block a = some [c])
    (ha : a ∉ addrs) : h'.block a = some [c] := by
  rw [done.outside a (BlockHeap.lt_next block) ha, block]

/-- The node `a` has been written behind code that was given neither it nor `others`. -/
theorem Leaves.extend (done : Leaves h addrs h' p t) (block : h.block a = some [c])
    {others given : List Nat} (hgiven : given.Perm (addrs ++ a :: others)) (nodup : given.Nodup)
    (hlt : ∀ b ∈ others, b < h.next) {c' : Cell K V} {whole : Node K V}
    (stands : ∀ now, Holds (h'.write a [c']) p t now →
      (h'.write a [c']).block a = some [c'] →
      (∀ b ∈ others, (h'.write a [c']).block b = h.block b) →
      ∃ all, all.Perm (now ++ a :: others) ∧ Holds (h'.write a [c']) (some a) whole all) :
    Leaves h given (h'.write a [c']) (some a) whole := by
  obtain ⟨now, hold, hnodup, own⟩ := done.tree
  obtain ⟨-, hrest, hdisjoint⟩ := List.nodup_append'.mp (hgiven.nodup_iff.mp nodup)
  have apart : ∀ b ∈ a :: others, b ∉ addrs := fun b hb hin => hdisjoint hin hb
  have hnow : ∀ b ∈ a :: others, b ∉ now := by
    intro b hb hin
    have hb' : b < h.next := by
      rcases List.mem_cons.mp hb with rfl | hb
      · exact BlockHeap.lt_next block
      · exact hlt b hb
    rcases own b hin with hold | hnew
    · exact apart b hb hold
    · exact absurd hnew (Nat.not_le.mpr hb')
  have ha : a ∉ addrs := apart a List.mem_cons_self
  have hsame : ∀ b ∈ others, (h'.write a [c']).block b = h.block b := by
    intro b hb
    have hne : b ≠ a := by
      rintro rfl
      exact (List.nodup_cons.mp hrest).1 hb
    rw [BlockHeap.block_write_of_ne hne, done.outside b (hlt b hb) (apart b (by simp [hb]))]
  obtain ⟨all, hperm, hall⟩ := stands now (hold.write (hnow a (by simp)))
    (BlockHeap.block_write_self (done.block_eq block ha)) hsame
  refine ⟨⟨all, hall, ?_, ?_⟩, ?_, done.next⟩
  · rw [hperm.nodup_iff]
    exact List.nodup_append'.mpr ⟨hnodup, hrest, fun b hin hb => hnow b hb hin⟩
  · intro b hb
    rcases List.mem_append.mp (hperm.mem_iff.mp hb) with hin | hother
    · rcases own b hin with hold | hnew
      · exact Or.inl (hgiven.mem_iff.mpr (List.mem_append_left _ hold))
      · exact Or.inr hnew
    · exact Or.inl (hgiven.mem_iff.mpr (List.mem_append_right _ hother))
  · intro b hltb hb
    rw [hgiven.mem_iff, List.mem_append, List.mem_cons, not_or, not_or] at hb
    rw [BlockHeap.block_write_of_ne hb.2.1, done.outside b hltb hb.1]

/-- A new left subtree under the node `a`. -/
theorem Leaves.setLeft (done : Leaves h addrs h' p l) (block : h.block a = some [c])
    (right : Holds h c.right r ra) (nodup : (addrs ++ a :: ra).Nodup) :
    Leaves h (addrs ++ a :: ra) (h'.write a [{ c with left := p }]) (some a)
      (.node l c.key c.value c.priority r) := by
  apply done.extend block (List.Perm.refl _) nodup right.lt_next
  intro now hold hwritten hsame
  have hnode := Holds.node hwritten hold (right.frame hsame)
  exact ⟨now ++ a :: ra, List.Perm.refl _, hnode⟩

/-- A node and the nodes on its two sides. -/
theorem nodup_around (nodup : (la ++ a :: ra).Nodup) :
    la.Nodup ∧ ra.Nodup ∧ a ∉ la ∧ a ∉ ra ∧ la.Disjoint ra := by
  obtain ⟨hla, har, hapart⟩ := List.nodup_append'.mp nodup
  obtain ⟨hright, hra⟩ := List.nodup_cons.mp har
  refine ⟨hla, hra, ?_, hright, ?_⟩
  · intro hin
    exact hapart hin List.mem_cons_self
  · intro b hl hr
    exact hapart hl (List.mem_cons_of_mem a hr)

theorem perm_swap_around (a : Nat) (l r : List Nat) : (l ++ a :: r).Perm (r ++ a :: l) :=
  List.perm_middle.trans ((List.perm_append_comm.cons a).trans List.perm_middle.symm)

/-- A new right subtree under the node `a`. -/
theorem Leaves.setRight (done : Leaves h addrs h' p r) (block : h.block a = some [c])
    (left : Holds h c.left l la) (nodup : (la ++ a :: addrs).Nodup) :
    Leaves h (la ++ a :: addrs) (h'.write a [{ c with right := p }]) (some a)
      (.node l c.key c.value c.priority r) := by
  apply done.extend block (perm_swap_around a la addrs) nodup left.lt_next
  intro now hold hwritten hsame
  have hnode := Holds.node hwritten (left.frame hsame) hold
  exact ⟨la ++ a :: now, perm_swap_around a la now, hnode⟩

/-- The node `a` is gone. -/
theorem Leaves.delete (done : Leaves h (la ++ ra) h' p t) (block : h.block a = some [c])
    (nodup : (la ++ a :: ra).Nodup) : Leaves h (la ++ a :: ra) (h'.remove a) p t := by
  obtain ⟨now, hold, hnodup, own⟩ := done.tree
  have ha : a ∉ la ++ ra := (List.nodup_cons.mp (List.nodup_middle.mp nodup)).1
  have hnow : a ∉ now := by
    intro hin
    rcases own a hin with hold | hnew
    · exact ha hold
    · exact absurd hnew (Nat.not_le.mpr (BlockHeap.lt_next block))
  have hmem : ∀ b, b ∈ la ++ a :: ra ↔ b = a ∨ b ∈ la ++ ra := fun b =>
    List.perm_middle.mem_iff.trans List.mem_cons
  refine ⟨⟨now, ?_, hnodup, ?_⟩, ?_, done.next⟩
  · apply hold.frame
    intro b hb
    apply BlockHeap.block_remove_of_ne
    rintro rfl
    exact hnow hb
  · intro b hb
    rcases own b hb with hold | hnew
    · exact Or.inl ((hmem b).mpr (Or.inr hold))
    · exact Or.inr hnew
  · intro b hltb hb
    rw [hmem, not_or] at hb
    rw [BlockHeap.block_remove_of_ne hb.1, done.outside b hltb hb.2]

/-- A node with no children at a new address. -/
theorem leaves_alloc (key : K) (value : V) (priority : UInt32) :
    Leaves h [] (h.alloc [{ key, value, priority }]) (some h.next)
      (.node .nil key value priority .nil) where
  tree := by
    have hblock : (h.alloc [{ key, value, priority }]).block h.next =
        some [{ key, value, priority }] := BlockHeap.block_alloc_self
    have hnode := Holds.node hblock Holds.nil Holds.nil
    exact ⟨[h.next], hnode, by simp, by simp⟩
  outside b hb _ := BlockHeap.block_alloc_of_lt hb
  next := Nat.le_succ _

/-- The value of the node `a` has been written. -/
theorem Holds.setValue (block : h.block a = some [c]) (left : Holds h c.left l la)
    (right : Holds h c.right r ra) (nodup : (la ++ a :: ra).Nodup) (value : V) :
    Leaves h (la ++ a :: ra) (h.write a [{ c with value }]) (some a)
      (.node l c.key value c.priority r) := by
  have hla := left.leaves (List.nodup_append'.mp nodup).1
  apply hla.extend block (List.Perm.refl _) nodup right.lt_next
  intro now hold hwritten hsame
  have hnode := Holds.node hwritten hold (right.frame hsame)
  exact ⟨now ++ a :: ra, List.Perm.refl _, hnode⟩

end Heap

section Primitives

variable {m : Memory K V} {a : Nat} {c : Cell K V} {R : Memory K V → Prop}

theorem load_block (block : m.heap.block a = some [c]) : m.heap.load a 0 = some c := by
  rw [BlockHeap.load_eq block]
  rfl

theorem ensures_cell {Q : Cell K V → Memory K V → Prop} (block : m.heap.block a = some [c]) :
    Ensures (cell a) Q R m ↔ Q c m := by
  simp [cell, ensures_bind, load_block block]

theorem ensures_setCell {Q : Unit → Memory K V → Prop} (block : m.heap.block a = some [c])
    (c' : Cell K V) :
    Ensures (setCell a c') Q R m ↔ Q () { m with heap := m.heap.write a [c'] } := by
  have hstore : m.heap.store a 0 c' = some (m.heap.write a [c']) :=
    BlockHeap.store_eq block Nat.one_pos
  simp [setCell, ensures_bind, hstore]

theorem ensures_setLeft {Q : Unit → Memory K V → Prop} (block : m.heap.block a = some [c])
    (q : Option Nat) :
    Ensures (setLeft a q) Q R m ↔ Q () { m with heap := m.heap.write a [{ c with left := q }] } := by
  rw [setLeft, ensures_bind, ensures_cell block, ensures_setCell block]

theorem ensures_setRight {Q : Unit → Memory K V → Prop} (block : m.heap.block a = some [c])
    (q : Option Nat) :
    Ensures (setRight a q) Q R m ↔
      Q () { m with heap := m.heap.write a [{ c with right := q }] } := by
  rw [setRight, ensures_bind, ensures_cell block, ensures_setCell block]

theorem ensures_deleteNode {Q : Unit → Memory K V → Prop} (block : m.heap.block a = some [c]) :
    Ensures (deleteNode a) Q R m ↔ Q () { m with heap := m.heap.remove a } := by
  simp [deleteNode, ensures_bind, BlockHeap.free_eq block]

variable (C : Client K V)

theorem ensures_mayThrow {Q : Unit → Memory K V → Prop} (call : Call)
    (done : Q () { m with calls := m.calls + 1 }) :
    Ensures (mayThrow C call) Q (fun _ => True) m := by
  unfold Ensures mayThrow
  cases C.throwsAt call m.calls with
  | true => trivial
  | false => exact done

theorem ensures_compare {Q : Bool → Memory K V → Prop} (k k' : K)
    (done : Q (C.comp k k') { m with calls := m.calls + 1 }) :
    Ensures (compare C k k') Q (fun _ => True) m :=
  ensures_bind.mpr (ensures_mayThrow C .compare done)

end Primitives

/-- The other members and the local flag are the same. -/
structure Untouched (m u : Memory K V) : Prop where
  root : u.root = m.root
  size : u.size = m.size
  drawn : u.drawn = m.drawn
  flag : u.flag = m.flag

theorem Untouched.refl (m : Memory K V) : Untouched m m := ⟨rfl, rfl, rfl, rfl⟩

theorem Untouched.heap (m : Memory K V) (heap : BlockHeap (Cell K V)) :
    Untouched m { m with heap } :=
  ⟨rfl, rfl, rfl, rfl⟩

theorem Untouched.trans {m u t : Memory K V} (h : Untouched m u) (h' : Untouched u t) :
    Untouched m t :=
  ⟨h'.root.trans h.root, h'.size.trans h.size, h'.drawn.trans h.drawn, h'.flag.trans h.flag⟩

section Rotations

variable {m : Memory K V} {R : Memory K V → Prop} {t : Node K V} {addrs : List Nat} {a : Nat}
  {c : Cell K V}

/-- What stands at `a` is read off its block. -/
theorem Holds.children {k : K} {v : V} {q : UInt32} {l r : Node K V}
    {h : BlockHeap (Cell K V)} (hold : Holds h (some a) (.node l k v q r) addrs) :
    ∃ c la ra, h.block a = some [c] ∧ Holds h c.left l la ∧ Holds h c.right r ra ∧
      addrs = la ++ a :: ra ∧ c.key = k ∧ c.value = v ∧ c.priority = q := by
  cases hold with
  | node block left right => exact ⟨_, _, _, block, left, right, rfl, rfl, rfl, rfl⟩

theorem ensures_outranks {child : Option Nat} {Q : Bool → Memory K V → Prop}
    (block : m.heap.block a = some [c]) (hold : Holds m.heap child t addrs) :
    Ensures (outranks child a) Q R m ↔ Q (t.outranks c.priority) m := by
  cases hold with
  | nil => rfl
  | node block' _ _ =>
    rw [outranks, ensures_bind, ensures_cell block', ensures_bind, ensures_cell block]
    rfl

theorem Holds.rotateRight {l r : Node K V} {k : K} {v : V} {q : UInt32}
    (hold : Holds m.heap (some a) (.node l k v q r) addrs) (nodup : addrs.Nodup) (hl : l ≠ .nil) :
    Ensures (rotateRight a) (fun p u => Leaves m.heap addrs u.heap (some p)
      (Node.node l k v q r).rotateRight ∧ Untouched m u) R m := by
  obtain ⟨cy, lx, lc, blocky, left, right, rfl, rfl, rfl, rfl⟩ := hold.children
  generalize hx : cy.left = p at left
  cases left with
  | nil => exact absurd rfl hl
  | node blockx leftx rightx =>
    rename_i x cx tx rx la lb
    rw [List.append_assoc, List.cons_append] at nodup ⊢
    have hinner := (List.nodup_cons.mp (List.nodup_append'.mp nodup).2.1).2
    have hlower := (rightx.leaves (List.nodup_append'.mp hinner).1).setLeft blocky right hinner
    have hne : x ≠ a := by
      rintro rfl
      have hx := (List.nodup_cons.mp (List.nodup_append'.mp nodup).2.1).1
      simp at hx
    have hblock : (m.heap.write a [{ cy with left := cx.right }]).block x = some [cx] := by
      rw [BlockHeap.block_write_of_ne hne, blockx]
    rw [Linked.rotateRight, ensures_bind, ensures_cell blocky, hx]
    simp only [ensures_bind, ensures_require]
    refine ⟨x, rfl, ?_⟩
    rw [ensures_cell blockx, ensures_setLeft blocky, ensures_setRight hblock]
    exact ⟨hlower.setRight blockx leftx nodup, ⟨rfl, rfl, rfl, rfl⟩⟩

theorem Holds.rotateLeft {l r : Node K V} {k : K} {v : V} {q : UInt32}
    (hold : Holds m.heap (some a) (.node l k v q r) addrs) (nodup : addrs.Nodup) (hr : r ≠ .nil) :
    Ensures (rotateLeft a) (fun p u => Leaves m.heap addrs u.heap (some p)
      (Node.node l k v q r).rotateLeft ∧ Untouched m u) R m := by
  obtain ⟨cx, lx, lc, blockx, left, right, rfl, rfl, rfl, rfl⟩ := hold.children
  generalize hy : cx.right = p at right
  cases right with
  | nil => exact absurd rfl hr
  | node blocky lefty righty =>
    rename_i y cy ty ry lb lc
    have hassoc : lx ++ a :: (lb ++ y :: lc) = (lx ++ a :: lb) ++ y :: lc := by simp
    rw [hassoc] at nodup ⊢
    obtain ⟨hinner, -, hapart⟩ := List.nodup_append'.mp nodup
    have houter := (List.nodup_append'.mp hinner).2.1
    have hlower := (lefty.leaves (List.nodup_cons.mp houter).2).setRight blockx left hinner
    have hne : y ≠ a := by
      rintro rfl
      exact hapart (by simp) List.mem_cons_self
    have hblock : (m.heap.write a [{ cx with right := cy.left }]).block y = some [cy] := by
      rw [BlockHeap.block_write_of_ne hne, blocky]
    rw [Linked.rotateLeft, ensures_bind, ensures_cell blockx, hy]
    simp only [ensures_bind, ensures_require]
    refine ⟨y, rfl, ?_⟩
    rw [ensures_cell blocky, ensures_setRight blockx, ensures_setLeft hblock]
    exact ⟨hlower.setLeft blocky righty nodup, ⟨rfl, rfl, rfl, rfl⟩⟩

/-- What an insertion does to a node once one of its links is set: the child comes up if it
outranks the node. -/
theorem Leaves.restore {h₀ : BlockHeap (Cell K V)} {child : Option Nat}
    {rotate : Nat → Code (Memory K V) Nat} {whole rotated : Node K V} {given ta : List Nat}
    (block : m.heap.block a = some [c]) (below : Holds m.heap child t ta)
    (done : Leaves h₀ given m.heap (some a) whole)
    (rotates : t ≠ .nil → ∀ now, Holds m.heap (some a) whole now → now.Nodup →
      Ensures (rotate a) (fun p u => Leaves m.heap now u.heap (some p) rotated ∧ Untouched m u) R m) :
    Ensures (do
        if ← outranks child a then
          let p ← rotate a
          return some p
        else return some a)
      (fun p u => Leaves h₀ given u.heap p
        (if t.outranks c.priority then rotated else whole) ∧ Untouched m u) R m := by
  rw [ensures_bind, ensures_outranks block below]
  cases houtranks : t.outranks c.priority with
  | false => exact ⟨done, Untouched.refl m⟩
  | true =>
    have ht : t ≠ .nil := by
      rintro rfl
      cases houtranks
    obtain ⟨now, hold, nodup, own⟩ := done.tree
    apply (rotates ht now hold nodup).andThen
    intro p u hu
    exact ⟨done.trans own hu.1, hu.2⟩

theorem Leaves.restoreLeft {h₀ : BlockHeap (Cell K V)} {t r : Node K V} {given : List Nat}
    (block : m.heap.block a = some [c])
    (done : Leaves h₀ given m.heap (some a) (.node t c.key c.value c.priority r)) :
    Ensures (do
        if ← outranks c.left a then
          let p ← Linked.rotateRight a
          return some p
        else return some a)
      (fun p u => Leaves h₀ given u.heap p
        (if t.outranks c.priority then (Node.node t c.key c.value c.priority r).rotateRight
          else .node t c.key c.value c.priority r) ∧ Untouched m u) R m := by
  obtain ⟨now, hold, -⟩ := done.tree
  obtain ⟨c', la, ra, block', left, -⟩ := hold.children
  rw [block] at block'
  cases block'
  exact done.restore block left fun ht now hold nodup => hold.rotateRight nodup ht

theorem Leaves.restoreRight {h₀ : BlockHeap (Cell K V)} {l t : Node K V} {given : List Nat}
    (block : m.heap.block a = some [c])
    (done : Leaves h₀ given m.heap (some a) (.node l c.key c.value c.priority t)) :
    Ensures (do
        if ← outranks c.right a then
          let p ← Linked.rotateLeft a
          return some p
        else return some a)
      (fun p u => Leaves h₀ given u.heap p
        (if t.outranks c.priority then (Node.node l c.key c.value c.priority t).rotateLeft
          else .node l c.key c.value c.priority t) ∧ Untouched m u) R m := by
  obtain ⟨now, hold, -⟩ := done.tree
  obtain ⟨c', la, ra, block', -, right, -⟩ := hold.children
  rw [block] at block'
  cases block'
  exact done.restore block right fun ht now hold nodup => hold.rotateLeft nodup ht

end Rotations

end CppCodes.Source.Treap.Linked
