import CppCodes.Guarantees.TreapExceptions

/-!
# The blocks that a member of the treap allocates and frees

A member leaves its map in nodes it had or has just allocated, and all others it had are freed;
what is not of its map stays as it was. An exception leaves the map all of its nodes.
-/

set_option autoImplicit false

namespace CppCodes.Guarantees.TreapBlocks

open CppCodes.Library CppCodes.Library.Code
open CppCodes.Source.Treap CppCodes.Source.Treap.Linked
open CppCodes.Guarantees.TreapExceptions

variable {K V : Type}

/-- The same blocks are allocated. -/
structure SameBlocks (m t : Memory K V) : Prop where
  next : t.heap.next = m.heap.next
  blocks : ∀ a, (t.heap.block a).isSome = (m.heap.block a).isSome
  flag : t.flag = m.flag

theorem SameBlocks.refl (m : Memory K V) : SameBlocks m m := ⟨rfl, fun _ => rfl, rfl⟩

theorem SameBlocks.trans {m u t : Memory K V} (h : SameBlocks m u) (h' : SameBlocks u t) :
    SameBlocks m t :=
  ⟨h'.next.trans h.next, fun a => (h'.blocks a).trans (h.blocks a), h'.flag.trans h.flag⟩

/-- One part that keeps the blocks after another. -/
theorem blocks_then {α β : Type} {c : Code (Memory K V) α} {f : α → Code (Memory K V) β}
    (hc : Returns SameBlocks c) (hf : ∀ a, Returns SameBlocks (f a)) : Returns SameBlocks (c >>= f) :=
  Returns.bind (Q := SameBlocks) (R := SameBlocks) (S := SameBlocks) SameBlocks.trans hc hf

section Primitives

variable (C : Client K V)

theorem blocks_mayThrow (c : Call) : Returns SameBlocks (mayThrow C c) := by
  intro m a t h
  unfold mayThrow at h
  split at h
  · cases h
  · cases h
    exact ⟨rfl, fun _ => rfl, rfl⟩

theorem blocks_pure {α : Type} (a : α) : Returns SameBlocks (pure a : Code (Memory K V) α) :=
  (quiet_pure SameBlocks.refl a).returns

theorem blocks_require {α : Type} (a : Option α) :
    Returns SameBlocks (require a : Code (Memory K V) α) :=
  (quiet_require SameBlocks.refl a).returns

theorem blocks_compare (a b : K) : Returns SameBlocks (compare C a b) :=
  blocks_then (blocks_mayThrow C .compare) fun _ => blocks_pure _

theorem blocks_cell (p : Nat) : Returns SameBlocks (cell p : Code (Memory K V) (Cell K V)) := by
  intro m c t h
  obtain ⟨rfl, -⟩ := cell_done h
  exact SameBlocks.refl t

theorem blocks_setCell (p : Nat) (c : Cell K V) : Returns SameBlocks (setCell p c) := by
  intro m _ t h
  obtain ⟨heap, hstore, rfl⟩ := setCell_done h
  obtain ⟨slots, hblock, rfl⟩ := BlockHeap.store_some hstore
  refine ⟨rfl, fun a => ?_, rfl⟩
  by_cases ha : a = p
  · rw [ha, BlockHeap.block_write_self hblock, hblock]
    rfl
  · rw [BlockHeap.block_write_of_ne ha]

theorem blocks_setLeft (p : Nat) (q : Option Nat) :
    Returns SameBlocks (setLeft p q : Code (Memory K V) Unit) :=
  blocks_then (blocks_cell p) fun _ => blocks_setCell p _

theorem blocks_setRight (p : Nat) (q : Option Nat) :
    Returns SameBlocks (setRight p q : Code (Memory K V) Unit) :=
  blocks_then (blocks_cell p) fun _ => blocks_setCell p _

theorem blocks_rotateLeft (p : Nat) : Returns SameBlocks (rotateLeft p : Code (Memory K V) Nat) :=
  blocks_then (blocks_cell p) fun cx =>
    blocks_then (blocks_require cx.right) fun y =>
      blocks_then (blocks_cell y) fun cy =>
        blocks_then (blocks_setRight p cy.left) fun _ =>
          blocks_then (blocks_setLeft y (some p)) fun _ => blocks_pure y

theorem blocks_rotateRight (p : Nat) : Returns SameBlocks (rotateRight p : Code (Memory K V) Nat) :=
  blocks_then (blocks_cell p) fun cy =>
    blocks_then (blocks_require cy.left) fun x =>
      blocks_then (blocks_cell x) fun cx =>
        blocks_then (blocks_setLeft p cx.right) fun _ =>
          blocks_then (blocks_setRight x (some p)) fun _ => blocks_pure x

theorem blocks_outranks (child : Option Nat) (node : Nat) :
    Returns SameBlocks (outranks child node : Code (Memory K V) Bool) := by
  cases child with
  | none => exact blocks_pure false
  | some p =>
    exact blocks_then (blocks_cell p) fun c =>
      blocks_then (blocks_cell node) fun n => blocks_pure _

theorem blocks_merge (depth : Nat) (a b : Option Nat) :
    Returns SameBlocks (merge depth a b : Code (Memory K V) (Option Nat)) := by
  induction depth generalizing a b with
  | zero =>
    intro m c t h
    cases h
  | succ depth ih =>
    cases a with
    | none => exact blocks_pure b
    | some a =>
      cases b with
      | none => exact blocks_pure (some a)
      | some b =>
        refine blocks_then (blocks_cell a) fun ca =>
          blocks_then (blocks_cell b) fun cb => Returns.ite ?_ ?_
        · exact blocks_then (ih ca.right (some b)) fun r =>
            blocks_then (blocks_setRight a r) fun _ => blocks_pure (some a)
        · exact blocks_then (ih (some a) cb.left) fun l =>
            blocks_then (blocks_setLeft b l) fun _ => blocks_pure (some b)

theorem blocks_assignValue (p : Nat) (value : V) : Returns SameBlocks (assignValue C p value) := by
  refine blocks_then (blocks_cell p) fun c =>
    blocks_then (quiet_read SameBlocks.refl _).returns fun throws =>
      blocks_then (quiet_modify fun _ => ⟨rfl, fun _ => rfl, rfl⟩).returns fun _ =>
        Returns.ite ?_ (blocks_setCell p _)
  intro m a t h
  obtain ⟨_, u, -, hraise⟩ := bind_done h
  obtain ⟨_, w, -, hlast⟩ := bind_done hraise
  cases hlast

end Primitives

/-- `insert_impl` allocates a node exactly when it says so. -/
def Allocates (m t : Memory K V) : Prop :=
  (t.flag = true ∧ t.heap.next = m.heap.next + 1 ∧
      ∀ a, (t.heap.block a).isSome = ((m.heap.block a).isSome || a == m.heap.next)) ∨
    (t.flag = false ∧ t.heap.next = m.heap.next ∧
      ∀ a, (t.heap.block a).isSome = (m.heap.block a).isSome)

theorem Allocates.after {m u t : Memory K V} (h : SameBlocks m u) (h' : Allocates u t) :
    Allocates m t := by
  unfold Allocates at h' ⊢
  simpa only [h.next, h.blocks] using h'

theorem Allocates.before {m u t : Memory K V} (h : Allocates m u) (h' : SameBlocks u t) :
    Allocates m t := by
  unfold Allocates at h ⊢
  simpa only [h'.next, h'.blocks, h'.flag] using h

theorem blocks_allocates {α β : Type} {c : Code (Memory K V) α} {f : α → Code (Memory K V) β}
    (hc : Returns SameBlocks c) (hf : ∀ a, Returns Allocates (f a)) : Returns Allocates (c >>= f) :=
  Returns.bind (Q := SameBlocks) (R := Allocates) (S := Allocates) Allocates.after hc hf

theorem allocates_blocks {α β : Type} {c : Code (Memory K V) α} {f : α → Code (Memory K V) β}
    (hc : Returns Allocates c) (hf : ∀ a, Returns SameBlocks (f a)) : Returns Allocates (c >>= f) :=
  Returns.bind (Q := Allocates) (R := SameBlocks) (S := Allocates) Allocates.before hc hf

section Members

variable (C : Client K V)

/-- The state when the node is about to be linked in. -/
theorem newNode_done {key : K} {value : V} {p : Nat} {m t : Memory K V}
    (h : newNode C key value m = .done p t) : ∃ priority,
      t.heap = m.heap.alloc [{ key, value, priority }] ∧ t.flag = m.flag := by
  obtain ⟨_, m1, h1, h⟩ := bind_done h
  obtain ⟨n, m2, h2, h⟩ := bind_done h
  obtain ⟨rfl, rfl⟩ := read_done h2
  obtain ⟨_, m3, h3, h⟩ := bind_done h
  obtain rfl := modify_done h3
  obtain ⟨_, m4, h4, h⟩ := bind_done h
  obtain ⟨_, m5, h5, h⟩ := bind_done h
  obtain ⟨a, m6, h6, h⟩ := bind_done h
  obtain ⟨rfl, rfl⟩ := read_done h6
  obtain ⟨_, m7, h7, h⟩ := bind_done h
  obtain rfl := modify_done h7
  cases h
  have hsame : ∀ {c : Call} {u w : Memory K V} {x : Unit}, mayThrow C c u = .done x w →
      w.heap = u.heap ∧ w.flag = u.flag := by
    intro c u w x hcall
    unfold mayThrow at hcall
    split at hcall
    · cases hcall
    · cases hcall
      exact ⟨rfl, rfl⟩
  have e1 := hsame h1
  have e4 := hsame h4
  have e5 := hsame h5
  refine ⟨C.draw m2.drawn, ?_, ?_⟩
  · dsimp only
    rw [e5.1, e4.1]
    dsimp only
    rw [e1.1]
  · dsimp only
    rw [e5.2, e4.2]
    exact e1.2

theorem allocates_newNode (key : K) (value : V) :
    Returns Allocates (setFlag true >>= fun _ => newNode C key value >>= fun p => pure (some p)) := by
  intro m p t h
  obtain ⟨_, u, hflag, h⟩ := bind_done h
  obtain rfl := modify_done hflag
  obtain ⟨a, w, hnew, h⟩ := bind_done h
  cases h
  obtain ⟨priority, hheap, hflag⟩ := newNode_done C hnew
  refine .inl ⟨hflag, by rw [hheap]; rfl, fun b => ?_⟩
  rw [hheap]
  by_cases hb : b = m.heap.next
  · rw [hb]
    simp
  · rw [BlockHeap.block_alloc_of_ne hb]
    simp [hb]

theorem allocates_insertImpl (assignOnMatch : Bool) (key : K) (value : V) (depth : Nat)
    (p : Option Nat) : Returns Allocates (insertImpl C assignOnMatch key value depth p) := by
  induction depth generalizing p with
  | zero =>
    intro m q t h
    cases h
  | succ depth ih =>
    cases p with
    | none => exact allocates_newNode C key value
    | some node =>
      refine blocks_allocates (blocks_cell node) fun c => blocks_allocates (blocks_compare C key c.key)
        fun less => Returns.ite ?_ (blocks_allocates (blocks_cell node) fun c =>
          blocks_allocates (blocks_compare C c.key key) fun greater => Returns.ite ?_ ?_)
      · exact allocates_blocks (ih c.left) fun l => blocks_then (blocks_setLeft node l) fun _ =>
          blocks_then (blocks_outranks l node) fun _ => Returns.ite
            (blocks_then (blocks_rotateRight node) fun a => blocks_pure (some a))
            (blocks_pure (some node))
      · exact allocates_blocks (ih c.right) fun r => blocks_then (blocks_setRight node r) fun _ =>
          blocks_then (blocks_outranks r node) fun _ => Returns.ite
            (blocks_then (blocks_rotateLeft node) fun a => blocks_pure (some a))
            (blocks_pure (some node))
      · have hlast : Returns Allocates (setFlag false >>= fun _ => pure (some node) :
            Code (Memory K V) (Option Nat)) := by
          intro m q t h
          obtain ⟨_, u, hflag, h⟩ := bind_done h
          obtain rfl := modify_done hflag
          cases h
          exact .inr ⟨rfl, rfl, fun _ => rfl⟩
        cases assignOnMatch with
        | false => exact hlast
        | true => exact blocks_allocates (blocks_assignValue C node value) fun _ => hlast

def FreesOne (m t : Memory K V) : Prop :=
  t.flag = true ∧ t.heap.next = m.heap.next ∧ ∃ a, (m.heap.block a).isSome = true ∧
    ∀ b, (t.heap.block b).isSome = ((m.heap.block b).isSome && b != a)

/-- `erase_impl` frees a node exactly when it says so. -/
def Frees (m t : Memory K V) : Prop := FreesOne m t ∨ SameBlocks m t

theorem FreesOne.after {m u t : Memory K V} (h : SameBlocks m u) (h' : FreesOne u t) :
    FreesOne m t := by
  unfold FreesOne at h' ⊢
  simpa only [h.next, h.blocks] using h'

theorem Frees.after {m u t : Memory K V} (h : SameBlocks m u) (h' : Frees u t) : Frees m t :=
  h'.imp (FreesOne.after h) h.trans

theorem Frees.before {m u t : Memory K V} (h : Frees m u) (h' : SameBlocks u t) : Frees m t := by
  refine h.imp (fun hone => ?_) fun hsame => hsame.trans h'
  unfold FreesOne at hone ⊢
  simpa only [h'.next, h'.blocks, h'.flag] using hone

theorem blocks_frees {α β : Type} {c : Code (Memory K V) α} {f : α → Code (Memory K V) β}
    (hc : Returns SameBlocks c) (hf : ∀ a, Returns Frees (f a)) : Returns Frees (c >>= f) :=
  Returns.bind (Q := SameBlocks) (R := Frees) (S := Frees) Frees.after hc hf

theorem frees_blocks {α β : Type} {c : Code (Memory K V) α} {f : α → Code (Memory K V) β}
    (hc : Returns Frees c) (hf : ∀ a, Returns SameBlocks (f a)) : Returns Frees (c >>= f) :=
  Returns.bind (Q := Frees) (R := SameBlocks) (S := Frees) Frees.before hc hf

theorem deleteNode_done {p : Nat} {m t : Memory K V} (h : deleteNode p m = .done () t) :
    (m.heap.block p).isSome = true ∧ t = { m with heap := m.heap.remove p } := by
  obtain ⟨freed, u, hread, hrest⟩ := bind_done h
  obtain ⟨rfl, rfl⟩ := read_done hread
  obtain ⟨heap, w, hrequire, hmodify⟩ := bind_done hrest
  obtain ⟨hfree, rfl⟩ := require_done hrequire
  obtain rfl := modify_done hmodify
  unfold BlockHeap.free at hfree
  obtain ⟨slots, hblock, rfl⟩ := Option.map_eq_some_iff.mp hfree
  exact ⟨by rw [hblock]; rfl, rfl⟩

theorem frees_deleteNode {α : Type} (p : Nat) (a : α) {m t : Memory K V} {x : α}
    (hflag : m.flag = true) (h : (deleteNode p >>= fun _ => pure a) m = .done x t) :
    FreesOne m t := by
  obtain ⟨_, u, hdelete, hpure⟩ := bind_done h
  obtain ⟨hblock, rfl⟩ := deleteNode_done hdelete
  cases hpure
  refine ⟨hflag, rfl, p, hblock, fun b => ?_⟩
  by_cases hb : b = p
  · rw [hb]
    simp
  · dsimp only
    rw [BlockHeap.block_remove_of_ne hb]
    simp [hb]

theorem frees_eraseImpl (key : K) (depth : Nat) (p : Option Nat) :
    Returns Frees (eraseImpl C key depth p) := by
  induction depth generalizing p with
  | zero =>
    intro m q t h
    cases h
  | succ depth ih =>
    cases p with
    | none =>
      intro m q t h
      cases h
      exact .inr (SameBlocks.refl m)
    | some node =>
      refine blocks_frees (blocks_cell node) fun c => blocks_frees (blocks_compare C key c.key)
        fun less => Returns.ite ?_ (blocks_frees (blocks_cell node) fun c =>
          blocks_frees (blocks_compare C c.key key) fun greater => Returns.ite ?_ ?_)
      · exact frees_blocks (ih c.left) fun l => blocks_then (blocks_setLeft node l) fun _ =>
          blocks_pure (some node)
      · exact frees_blocks (ih c.right) fun r => blocks_then (blocks_setRight node r) fun _ =>
          blocks_pure (some node)
      · intro m q t h
        obtain ⟨_, u, hset, hread⟩ := bind_done h
        obtain rfl := modify_done hset
        obtain ⟨c', u, hcell, hrest⟩ := bind_done hread
        obtain ⟨merged, w, hmerge, hlast⟩ := bind_done hrest
        have hsame := (blocks_cell node _ _ _ hcell).trans
          (blocks_merge depth c'.left c'.right _ _ _ hmerge)
        have hone : FreesOne { m with flag := true } t :=
          (frees_deleteNode node merged hsame.flag hlast).after hsame
        exact .inl hone

end Members

/-! ## The nodes of one map behind a call -/

section Heap

variable {h h' : BlockHeap (Cell K V)} {p : Option Nat} {t t' : Node K V} {addrs addrs' now : List Nat}

theorem length_of_holds (hold : Holds h p t addrs) : addrs.length = t.count := by
  induction hold with
  | nil => rfl
  | node _ _ _ ihl ihr =>
    rw [List.length_append, List.length_cons, ihl, ihr, count_node]
    omega

theorem allocated_of_holds (hold : Holds h p t addrs) : ∀ a ∈ addrs, (h.block a).isSome = true := by
  induction hold with
  | nil =>
    intro a ha
    cases ha
  | node block _ _ ihl ihr =>
    intro b hb
    rcases List.mem_append.mp hb with hl | hmid
    · exact ihl b hl
    · rcases List.mem_cons.mp hmid with rfl | hr
      · rw [block]
        rfl
      · exact ihr b hr

theorem holds_unique (hold : Holds h p t addrs) (hold' : Holds h p t' addrs') :
    t = t' ∧ addrs = addrs' := by
  induction hold generalizing t' addrs' with
  | nil =>
    cases hold'
    exact ⟨rfl, rfl⟩
  | node block _ _ ihl ihr =>
    cases hold' with
    | node block' left' right' =>
      rw [block] at block'
      cases block'
      obtain ⟨rfl, rfl⟩ := ihl left'
      obtain ⟨rfl, rfl⟩ := ihr right'
      exact ⟨rfl, rfl⟩

theorem isSome_lt {a : Nat} (ha : (h.block a).isSome = true) :
    a < h.next := by
  obtain ⟨slots, hblock⟩ := Option.isSome_iff_exists.mp ha
  exact BlockHeap.lt_next hblock

/-- Of the nodes `addrs` a call has made the nodes `now`; the others it had are freed, and those it
did not have are as they were. -/
structure Settled (h : BlockHeap (Cell K V)) (addrs : List Nat) (h' : BlockHeap (Cell K V))
    (now : List Nat) : Prop where
  own : ∀ a ∈ now, a ∈ addrs ∨ h.next ≤ a
  outside : ∀ a < h.next, a ∉ addrs → h'.block a = h.block a
  covered : ∀ a, (h'.block a).isSome = true → a ∈ now ∨ a < h.next ∧ a ∉ addrs

/-- A tree with no fewer nodes than the blocks it may stand in has all of them. -/
theorem settled_of_leaves (done : Leaves h addrs h' p t) (l : List Nat)
    (hl : ∀ a, (h'.block a).isSome = true → a ∈ l ∨ a < h.next ∧ a ∉ addrs)
    (hcount : l.length ≤ t.count) :
    ∃ now, Holds h' p t now ∧ now.Nodup ∧ Settled h addrs h' now := by
  obtain ⟨now, hold, nodup, own⟩ := done.tree
  have hsub : now ⊆ l := by
    intro a ha
    rcases hl a (allocated_of_holds hold a ha) with hin | ⟨hlt, hout⟩
    · exact hin
    · rcases own a ha with hin | hnew
      · exact absurd hin hout
      · exact absurd hnew (Nat.not_le.mpr hlt)
  rw [← length_of_holds hold] at hcount
  have hperm := (List.subperm_of_subset nodup hsub).perm_of_length_le hcount
  refine ⟨now, hold, nodup, own, done.outside, fun a ha => ?_⟩
  rw [hperm.mem_iff]
  exact hl a ha

theorem settled_refl (h : BlockHeap (Cell K V)) (addrs : List Nat) : Settled h addrs h addrs where
  own _ ha := .inl ha
  outside _ _ _ := rfl
  covered a ha := by
    by_cases hin : a ∈ addrs
    · exact .inl hin
    · exact .inr ⟨isSome_lt ha, hin⟩

end Heap

/-- A call leaves a map, in nodes that were its own or are new. -/
def Settles (m : Memory K V) (addrs : List Nat) (u : Memory K V) : Prop :=
  ∃ t now, Holds u.heap u.root t now ∧ now.Nodup ∧ Settled m.heap addrs u.heap now

section Calls

variable {m : Memory K V} {t : Node K V} {addrs : List Nat} (C : Client K V)

theorem insertWith_settles (hold : Holds m.heap m.root t addrs) (nodup : addrs.Nodup)
    (hdepth : t.count < m.size + 1) (assignOnMatch : Bool) (key : K) (value : V) :
    Ensures (insertWith C assignOnMatch key value) (fun _ u => Settles m addrs u) (fun _ => True) m := by
  have hspec := insertImpl_spec C (m := { m with flag := false }) assignOnMatch key value hold nodup hdepth
  have hcount := count_insertImpl C.comp assignOnMatch key value (C.draw m.drawn) t
  apply (hspec.with_returns (allocates_insertImpl C assignOnMatch key value _ _)).andThen
  intro root u hu
  obtain ⟨hcomputes, hallocates⟩ := hu
  have hlength := length_of_holds hold
  have hsettles : Settles m addrs { u with root := root } := by
    refine ⟨(t.insertImpl C.comp assignOnMatch key value (C.draw m.drawn)).1, ?_⟩
    rcases hallocates with ⟨hflag, hnext, hblocks⟩ | ⟨hflag, hnext, hblocks⟩
    · rw [hcomputes.flag] at hflag
      apply settled_of_leaves hcomputes.leaves (m.heap.next :: addrs)
      · intro a ha
        rw [hblocks, Bool.or_eq_true, beq_iff_eq] at ha
        rcases ha with hold' | rfl
        · by_cases hin : a ∈ addrs
          · exact .inl (List.mem_cons_of_mem _ hin)
          · exact .inr ⟨isSome_lt hold', hin⟩
        · exact .inl List.mem_cons_self
      · rw [hflag] at hcount
        rw [List.length_cons, hlength, hcount]
        rfl
    · rw [hcomputes.flag] at hflag
      apply settled_of_leaves hcomputes.leaves addrs
      · intro a ha
        rw [hblocks] at ha
        by_cases hin : a ∈ addrs
        · exact .inl hin
        · exact .inr ⟨isSome_lt ha, hin⟩
      · rw [hlength, hcount]
        exact Nat.le_add_right _ _
  simp only [ensures_bind, ensures_modify, ensures_read]
  cases u.flag with
  | true => exact hsettles
  | false => exact hsettles

theorem erase_settles (hold : Holds m.heap m.root t addrs) (nodup : addrs.Nodup)
    (hdepth : t.count < m.size + 1) (key : K) :
    Ensures (erase C key) (fun _ u => Settles m addrs u) (fun _ => True) m := by
  have hspec := eraseImpl_spec C (m := { m with flag := false }) key hold nodup hdepth rfl
  have hcount := count_eraseImpl C.comp key t
  apply (hspec.with_returns (frees_eraseImpl C key _ _)).andThen
  intro root u hu
  obtain ⟨hcomputes, hfrees⟩ := hu
  have hlength := length_of_holds hold
  have hsettles : Settles m addrs { u with root := root } := by
    refine ⟨(t.eraseImpl C.comp key).1, ?_⟩
    rcases hfrees with ⟨hflag, hnext, x, hx, hblocks⟩ | hsame
    · rw [hcomputes.flag] at hflag
      have hin : x ∈ addrs := by
        by_contra hout
        have hkept := hcomputes.leaves.outside x (isSome_lt hx) hout
        have hgone := hblocks x
        rw [hkept] at hgone
        simp only [bne_self_eq_false, Bool.and_false] at hgone
        rw [hgone] at hx
        cases hx
      apply settled_of_leaves hcomputes.leaves (addrs.erase x)
      · intro a ha
        rw [hblocks, Bool.and_eq_true, bne_iff_ne] at ha
        by_cases hmem : a ∈ addrs
        · exact .inl ((List.mem_erase_of_ne ha.2).mpr hmem)
        · exact .inr ⟨isSome_lt ha.1, hmem⟩
      · rw [hflag] at hcount
        rw [List.length_erase_of_mem hin, hlength, ← hcount]
        exact Nat.le_refl _
    · apply settled_of_leaves hcomputes.leaves addrs
      · intro a ha
        rw [hsame.blocks] at ha
        by_cases hin : a ∈ addrs
        · exact .inl hin
        · exact .inr ⟨isSome_lt ha, hin⟩
      · have hflag := hcomputes.flag.symm.trans hsame.flag
        rw [hflag] at hcount
        rw [hlength, ← hcount]
        exact Nat.le_refl _
  simp only [ensures_bind, ensures_modify, ensures_read]
  cases u.flag with
  | true => exact hsettles
  | false => exact hsettles

/-- All the nodes of the subtree are freed. -/
theorem destroySubtree_frees {R : Memory K V → Prop} {depth : Nat} {p : Option Nat}
    (hold : Holds m.heap p t addrs) (nodup : addrs.Nodup) (hdepth : t.count < depth) :
    Ensures (destroySubtree depth p) (fun _ u => (∀ a ∈ addrs, u.heap.block a = none) ∧
      u.heap.next = m.heap.next) R m := by
  induction depth generalizing m t p addrs with
  | zero => exact absurd hdepth (Nat.not_lt_zero _)
  | succ depth ih =>
    cases hold with
    | nil => exact ⟨fun a ha => absurd ha List.not_mem_nil, rfl⟩
    | node block left right =>
      rename_i a c l r la ra
      rw [count_node] at hdepth
      obtain ⟨hla, hra, hleft, hright, hapart⟩ := nodup_around nodup
      have hspec := destroySubtree_spec (R := R) left hla (show l.count < depth by omega)
      rw [destroySubtree, ensures_bind, ensures_cell block]
      apply (hspec.and (ih left hla (by omega))).andThen
      intro _ u hu
      obtain ⟨⟨hu, -⟩, hgone, hnext⟩ := hu
      have hblock := hu.block_eq block hleft
      have hright' : Holds u.heap c.right r ra := by
        apply right.frame
        intro b hb
        exact hu.outside b (right.lt_next b hb) fun hin => hapart hin hb
      have hspec' := destroySubtree_spec (R := R) hright' hra (show r.count < depth by omega)
      rw [ensures_bind, ensures_cell hblock]
      apply (hspec'.and (ih hright' hra (by omega))).andThen
      intro _ w hw
      obtain ⟨⟨hw, -⟩, hgone', hnext'⟩ := hw
      rw [ensures_deleteNode (hw.block_eq hblock hright)]
      refine ⟨fun b hb => ?_, hnext'.trans hnext⟩
      by_cases hba : b = a
      · rw [hba]
        exact BlockHeap.block_remove_self
      · dsimp only
        rw [BlockHeap.block_remove_of_ne hba]
        rcases List.mem_append.mp hb with hl | hmid
        · rw [hw.outside b (by rw [hnext]; exact left.lt_next b hl) fun hin => hapart hl hin]
          exact hgone b hl
        · rcases List.mem_cons.mp hmid with hhere | hr
          · exact absurd hhere hba
          · exact hgone' b hr

/-- Nothing is left of the map. -/
theorem clear_settles {R : Memory K V → Prop} (hold : Holds m.heap m.root t addrs)
    (nodup : addrs.Nodup) (hdepth : t.count < m.size + 1) :
    Ensures clear (fun _ u => u.root = none ∧ u.size = 0 ∧ Settled m.heap addrs u.heap []) R m := by
  have hspec := destroySubtree_spec (R := R) hold nodup hdepth
  apply (hspec.and (destroySubtree_frees hold nodup hdepth)).andThen
  intro _ u hu
  obtain ⟨⟨hleaves, -⟩, hgone, hnext⟩ := hu
  refine ⟨rfl, rfl, fun a ha => absurd ha List.not_mem_nil, hleaves.outside, fun a ha => ?_⟩
  refine .inr ⟨?_, fun hin => ?_⟩
  · rw [← hnext]
    exact isSome_lt ha
  · rw [hgone a hin] at ha
    cases ha

/-- An operation that returns. -/
theorem perform_settles (hold : Holds m.heap m.root t addrs) (nodup : addrs.Nodup)
    (hdepth : t.count < m.size + 1) (op : Op K V) :
    Ensures (perform C op) (fun _ u => Settles m addrs u) (fun _ => True) m := by
  have hsame : Settles m addrs m := ⟨t, addrs, hold, nodup, settled_refl m.heap addrs⟩
  have hfind : ∀ key, Ensures (find C key) (fun _ u => Settles m addrs u) (fun _ => True) m := by
    intro key
    apply (findFrom_spec C key hold hdepth).weaken
    intro _ u hu
    obtain ⟨-, hheap, huntouched⟩ := hu
    unfold Settles
    rw [hheap, huntouched.root]
    exact hsame
  cases op with
  | insert key value => exact (insertWith_settles C hold nodup hdepth false key value).andThen fun _ _ h => h
  | insertOrAssign key value =>
    exact (insertWith_settles C hold nodup hdepth true key value).andThen fun _ _ h => h
  | erase key => exact (erase_settles C hold nodup hdepth key).andThen fun _ _ h => h
  | find key => exact (hfind key).andThen fun _ _ h => h
  | contains key => exact (hfind key).andThen fun _ _ h => h
  | size => exact hsame
  | empty => exact hsame
  | clear =>
    apply (clear_settles hold nodup hdepth).andThen
    intro _ u hu
    obtain ⟨hroot, -, hsettled⟩ := hu
    refine ⟨.nil, [], ?_, List.nodup_nil, hsettled⟩
    rw [hroot]
    exact Holds.nil

/-! ## Calls that throw -/

theorem outside_assignValue {p : Nat} {value : V} {u : Memory K V}
    (h : assignValue C p value m = .threw u) : ∀ a ≠ p, u.heap.block a = m.heap.block a := by
  rcases bind_threw h with hthrew | ⟨c, m1, hcell, hafter⟩
  · exact absurd hthrew (noThrow_cell p m u)
  obtain ⟨rfl, -⟩ := cell_done hcell
  rcases bind_threw hafter with hthrew | ⟨throws, m2, hread, hcounted⟩
  · exact absurd hthrew (noThrow_read _ _ u)
  obtain ⟨rfl, rfl⟩ := read_done hread
  rcases bind_threw hcounted with hthrew | ⟨_, m3, hmodify, hrest⟩
  · exact absurd hthrew (noThrow_modify _ _ u)
  obtain rfl := modify_done hmodify
  split at hrest
  · rcases bind_threw hrest with hthrew | ⟨_, m4, hset, hlast⟩
    · exact absurd hthrew (noThrow_setCell p _ _ u)
    obtain ⟨heap, hstore, rfl⟩ := setCell_done hset
    obtain ⟨slots, hblock, rfl⟩ := BlockHeap.store_some hstore
    cases hlast
    intro a ha
    exact BlockHeap.block_write_of_ne ha
  · exact absurd hrest (noThrow_setCell p _ _ u)

/-- An exception of `insert_impl` leaves alone what is not of its subtree. -/
theorem outside_insertImpl (assignOnMatch : Bool) (key : K) (value : V) {depth : Nat}
    {p : Option Nat} {u : Memory K V} (hold : Holds m.heap p t addrs)
    (h : insertImpl C assignOnMatch key value depth p m = .threw u) :
    ∀ a ∉ addrs, u.heap.block a = m.heap.block a := by
  induction depth generalizing m t p addrs with
  | zero => cases h
  | succ depth ih =>
    cases hold with
    | nil =>
      have hkept := after (quiet_setFlag true) (fun _ =>
        Atomic.before_noThrow (atomic_newNode C false key value) fun a => noThrow_pure (some a))
        m u h
      intro a _
      rw [(hkept.rest (.inl rfl)).heap]
    | node block left right =>
      rename_i node c l r la ra
      rcases bind_threw h with hthrew | ⟨c', m1, hcell, h1⟩
      · exact absurd hthrew (noThrow_cell node m u)
      obtain ⟨rfl, hload⟩ := cell_done hcell
      rw [BlockHeap.load_eq block] at hload
      cases hload
      rcases bind_threw h1 with hthrew | ⟨less, m2, hless, h2⟩
      · intro a _
        rw [((quiet_compare C key c.key).threw _ _ hthrew).heap]
      have hheap := ((quiet_compare C key c.key).done _ _ _ hless).heap
      have hwiden : ∀ {s : List Nat} {w : Memory K V}, w.heap = m1.heap → s ⊆ la ++ node :: ra →
          (∀ a ∉ s, u.heap.block a = w.heap.block a) →
          ∀ a ∉ la ++ node :: ra, u.heap.block a = m1.heap.block a := by
        intro s w hw hsub hout a ha
        rw [hout a fun hin => ha (hsub hin), hw]
      split at h2
      · rcases bind_threw h2 with hthrew | ⟨l', m3, -, h3⟩
        · exact hwiden hheap (List.subset_append_left _ _)
            (ih (left.frame fun a _ => by rw [hheap]) hthrew)
        · exact absurd h3 ((NoThrow.bind (noThrow_setLeft node l') fun _ =>
            NoThrow.bind (noThrow_outranks l' node) fun _ => NoThrow.ite
              (NoThrow.bind (noThrow_rotateRight node) fun a => noThrow_pure (some a))
              (noThrow_pure (some node))) m3 u)
      · rcases bind_threw h2 with hthrew | ⟨c', m3, hcell', h3⟩
        · exact absurd hthrew (noThrow_cell node m2 u)
        obtain ⟨rfl, hload⟩ := cell_done hcell'
        rw [hheap, BlockHeap.load_eq block] at hload
        cases hload
        rcases bind_threw h3 with hthrew | ⟨greater, m4, hgreater, h4⟩
        · intro a _
          rw [((quiet_compare C c.key key).threw _ _ hthrew).heap, hheap]
        have hheap' := ((quiet_compare C c.key key).done _ _ _ hgreater).heap.trans hheap
        split at h4
        · rcases bind_threw h4 with hthrew | ⟨r', m5, -, h5⟩
          · exact hwiden hheap' (fun a ha => by simp [ha])
              (ih (right.frame fun a _ => by rw [hheap']) hthrew)
          · exact absurd h5 ((NoThrow.bind (noThrow_setRight node r') fun _ =>
              NoThrow.bind (noThrow_outranks r' node) fun _ => NoThrow.ite
                (NoThrow.bind (noThrow_rotateLeft node) fun a => noThrow_pure (some a))
                (noThrow_pure (some node))) m5 u)
        · have hlast : ∀ w : Memory K V, (setFlag false >>= fun _ => pure (some node) :
              Code (Memory K V) (Option Nat)) w ≠ .threw u := fun w =>
            NoThrow.bind (noThrow_modify _) (fun _ => noThrow_pure (some node)) w u
          cases assignOnMatch with
          | false => exact absurd h4 (hlast m4)
          | true =>
            rcases bind_threw h4 with hthrew | ⟨_, m5, -, h5⟩
            · exact hwiden (s := [node]) hheap' (fun a ha => by simp [List.mem_singleton.mp ha])
                fun a ha => outside_assignValue C hthrew a fun he => ha (List.mem_singleton.mpr he)
            · exact absurd h5 (hlast m5)

theorem outside_insertWith (assignOnMatch : Bool) (key : K) (value : V) {u : Memory K V}
    (hold : Holds m.heap m.root t addrs) (h : insertWith C assignOnMatch key value m = .threw u) :
    ∀ a ∉ addrs, u.heap.block a = m.heap.block a := by
  rcases bind_threw h with hthrew | ⟨_, m1, hset, h1⟩
  · exact absurd hthrew (noThrow_modify _ m u)
  obtain rfl := modify_done hset
  rcases bind_threw h1 with hthrew | ⟨root, m2, hroot, h2⟩
  · exact absurd hthrew (noThrow_read _ _ u)
  obtain ⟨rfl, rfl⟩ := read_done hroot
  rcases bind_threw h2 with hthrew | ⟨depth, m3, hdepth, h3⟩
  · exact absurd hthrew (noThrow_read _ _ u)
  obtain ⟨rfl, rfl⟩ := read_done hdepth
  rcases bind_threw h3 with hthrew | ⟨root', m4, -, h4⟩
  · exact outside_insertImpl C (m := { m with flag := false }) assignOnMatch key value hold hthrew
  · exact absurd h4 (NoThrow.bind (noThrow_modify _) (fun _ => NoThrow.bind (noThrow_read _)
      fun inserted => NoThrow.ite (NoThrow.bind (noThrow_modify _) fun _ => noThrow_pure inserted)
        (noThrow_pure inserted)) m4 u)

/-- An operation that throws leaves the map its nodes, and only writes to those. -/
theorem perform_threw (hold : Holds m.heap m.root t addrs) (op : Op K V) {u : Memory K V}
    (h : perform C op m = .threw u) : u.size = m.size ∧
      (∃ t', Holds u.heap u.root t' addrs ∧ t'.count = t.count) ∧
      Settled m.heap addrs u.heap addrs := by
  have hkept := atomic_perform C op m u h
  have houtside : ∀ a ∉ addrs, u.heap.block a = m.heap.block a := by
    have hrest : assigns op = false → ∀ a ∉ addrs, u.heap.block a = m.heap.block a := by
      intro hassigns a _
      rw [(hkept.rest (.inl hassigns)).heap]
    cases op with
    | insertOrAssign key value =>
      rcases bind_threw h with hthrew | ⟨b, w, -, hpure⟩
      · exact outside_insertWith C true key value hold hthrew
      · cases hpure
    | insert key value => exact hrest rfl
    | erase key => exact hrest rfl
    | find key => exact hrest rfl
    | contains key => exact hrest rfl
    | size => exact hrest rfl
    | empty => exact hrest rfl
    | clear => exact hrest rfl
  obtain ⟨t', hold', hcount⟩ := holds_of_outline hold hkept.outline.nodes
  rw [← hkept.outline.root] at hold'
  refine ⟨hkept.outline.size, ⟨t', hold', hcount⟩, fun a ha => .inl ha,
    fun a _ hout => houtside a hout, fun a ha => ?_⟩
  by_cases hin : a ∈ addrs
  · exact .inl hin
  · rw [houtside a hin] at ha
    exact .inr ⟨isSome_lt ha, hin⟩

end Calls

end CppCodes.Guarantees.TreapBlocks
