import CppCodes.Source.Treap.LinkedRefinement

/-!
# Failed operations on the treap

Nothing is changed in the tree before the last call that can throw: links are set and
nodes rotated on the way back up only, when the comparisons and the new node are done
with. The assignment of a value is the one call that can leave something behind, in the
value it was assigning.
-/

set_option autoImplicit false

namespace CppCodes.Guarantees.TreapExceptions

open CppCodes.Library CppCodes.Library.Code
open CppCodes.Source.Treap CppCodes.Source.Treap.Linked

variable {K V : Type}

/-- The nodes, the root and `size_` are the same. -/
structure Same (m t : Memory K V) : Prop where
  heap : t.heap = m.heap
  root : t.root = m.root
  size : t.size = m.size

/-- A node without its value. -/
def outline (c : Cell K V) : K × UInt32 × Option Nat × Option Nat :=
  (c.key, c.priority, c.left, c.right)

/-- The same but for values. -/
structure SameOutline (m t : Memory K V) : Prop where
  nodes : ∀ p, (t.heap.block p).map (List.map outline) = (m.heap.block p).map (List.map outline)
  root : t.root = m.root
  size : t.size = m.size

/-- What an exception may leave: all of the map as it was, or, where a value was assigned
and its assignment threw, all of it but for values. -/
structure Kept (assigns : Bool) (m t : Memory K V) : Prop where
  outline : SameOutline m t
  rest : assigns = false ∨ t.failed ≠ some .assignValue → Same m t

theorem Same.refl (m : Memory K V) : Same m m := ⟨rfl, rfl, rfl⟩

theorem Same.trans {m u t : Memory K V} (h : Same m u) (h' : Same u t) : Same m t :=
  ⟨h'.heap.trans h.heap, h'.root.trans h.root, h'.size.trans h.size⟩

theorem Same.outline {m t : Memory K V} (h : Same m t) : SameOutline m t :=
  ⟨fun p => by rw [h.heap], h.root, h.size⟩

theorem Same.kept {assigns : Bool} {m t : Memory K V} (h : Same m t) : Kept assigns m t :=
  ⟨h.outline, fun _ => h⟩

theorem Same.then_kept {assigns : Bool} {m u t : Memory K V} (h : Same m u)
    (h' : Kept assigns u t) : Kept assigns m t where
  outline :=
    { nodes := fun p => (h'.outline.nodes p).trans (by rw [h.heap])
      root := h'.outline.root.trans h.root
      size := h'.outline.size.trans h.size }
  rest hfailed := h.trans (h'.rest hfailed)

section Primitives

variable (C : Client K V)

theorem quiet_mayThrow (c : Call) : Quiet Same (mayThrow C c) where
  threw m t h := by
    unfold mayThrow at h
    split at h
    · cases h
      exact ⟨rfl, rfl, rfl⟩
    · cases h
  done m _ t h := by
    unfold mayThrow at h
    split at h
    · cases h
    · cases h
      exact ⟨rfl, rfl, rfl⟩

theorem quiet_cell (p : Nat) : Quiet Same (cell p : Code (Memory K V) (Cell K V)) :=
  Quiet.bind Same.trans (quiet_read Same.refl _) fun c => quiet_require Same.refl c

theorem quiet_compare (a b : K) : Quiet Same (compare C a b) :=
  Quiet.bind Same.trans (quiet_mayThrow C .compare) fun _ => quiet_pure Same.refl _

theorem quiet_setFlag (b : Bool) : Quiet Same (setFlag b : Code (Memory K V) Unit) :=
  quiet_modify fun _ => ⟨rfl, rfl, rfl⟩

theorem noThrow_cell (p : Nat) : NoThrow (cell p : Code (Memory K V) (Cell K V)) :=
  NoThrow.bind (noThrow_read _) fun c => noThrow_require c

theorem noThrow_setCell (p : Nat) (c : Cell K V) : NoThrow (setCell p c) :=
  NoThrow.bind (noThrow_read _) fun s => NoThrow.bind (noThrow_require s) fun _ => noThrow_modify _

theorem noThrow_setLeft (p : Nat) (q : Option Nat) : NoThrow (setLeft p q : Code (Memory K V) Unit) :=
  NoThrow.bind (noThrow_cell p) fun _ => noThrow_setCell p _

theorem noThrow_setRight (p : Nat) (q : Option Nat) : NoThrow (setRight p q : Code (Memory K V) Unit) :=
  NoThrow.bind (noThrow_cell p) fun _ => noThrow_setCell p _

theorem noThrow_deleteNode (p : Nat) : NoThrow (deleteNode p : Code (Memory K V) Unit) :=
  NoThrow.bind (noThrow_read _) fun s => NoThrow.bind (noThrow_require s) fun _ => noThrow_modify _

theorem noThrow_rotateLeft (p : Nat) : NoThrow (rotateLeft p : Code (Memory K V) Nat) :=
  NoThrow.bind (noThrow_cell p) fun cx => NoThrow.bind (noThrow_require cx.right) fun y =>
    NoThrow.bind (noThrow_cell y) fun cy => NoThrow.bind (noThrow_setRight p cy.left) fun _ =>
      NoThrow.bind (noThrow_setLeft y (some p)) fun _ => noThrow_pure y

theorem noThrow_rotateRight (p : Nat) : NoThrow (rotateRight p : Code (Memory K V) Nat) :=
  NoThrow.bind (noThrow_cell p) fun cy => NoThrow.bind (noThrow_require cy.left) fun x =>
    NoThrow.bind (noThrow_cell x) fun cx => NoThrow.bind (noThrow_setLeft p cx.right) fun _ =>
      NoThrow.bind (noThrow_setRight x (some p)) fun _ => noThrow_pure x

theorem noThrow_outranks (child : Option Nat) (node : Nat) :
    NoThrow (outranks child node : Code (Memory K V) Bool) := by
  cases child with
  | none => exact noThrow_pure false
  | some p =>
    exact NoThrow.bind (noThrow_cell p) fun c => NoThrow.bind (noThrow_cell node) fun n =>
      noThrow_pure (decide (c.priority > n.priority))

theorem noThrow_merge (depth : Nat) (a b : Option Nat) :
    NoThrow (merge depth a b : Code (Memory K V) (Option Nat)) := by
  induction depth generalizing a b with
  | zero => exact noThrow_fail
  | succ depth ih =>
    cases a with
    | none => exact noThrow_pure b
    | some a =>
      cases b with
      | none => exact noThrow_pure (some a)
      | some b =>
        refine NoThrow.bind (noThrow_cell a) fun ca => NoThrow.bind (noThrow_cell b) fun cb =>
          NoThrow.ite ?_ ?_
        · exact NoThrow.bind (ih ca.right (some b)) fun r =>
            NoThrow.bind (noThrow_setRight a r) fun _ => noThrow_pure (some a)
        · exact NoThrow.bind (ih (some a) cb.left) fun l =>
            NoThrow.bind (noThrow_setLeft b l) fun _ => noThrow_pure (some b)

theorem noThrow_destroySubtree (depth : Nat) (p : Option Nat) :
    NoThrow (destroySubtree depth p : Code (Memory K V) Unit) := by
  induction depth generalizing p with
  | zero => exact noThrow_fail
  | succ depth ih =>
    cases p with
    | none => exact noThrow_pure ()
    | some p =>
      exact NoThrow.bind (noThrow_cell p) fun c => NoThrow.bind (ih c.left) fun _ =>
        NoThrow.bind (noThrow_cell p) fun c => NoThrow.bind (ih c.right) fun _ =>
          noThrow_deleteNode p

end Primitives

/-- A part that changes nothing comes first. -/
theorem after {α β : Type} {assigns : Bool} {c : Code (Memory K V) α}
    {f : α → Code (Memory K V) β} (hc : Quiet Same c) (hf : ∀ a, Atomic (Kept assigns) (f a)) :
    Atomic (Kept assigns) (c >>= f) :=
  Atomic.after_quiet Same.kept Same.then_kept hc hf

section Members

variable (C : Client K V)

/-- The node is there once everything about it has been constructed. -/
theorem atomic_newNode (assigns : Bool) (key : K) (value : V) :
    Atomic (Kept assigns) (newNode C key value) :=
  after (quiet_mayThrow C .allocate) fun _ => after (quiet_read Same.refl _) fun _ =>
    after (quiet_modify fun _ => ⟨rfl, rfl, rfl⟩) fun _ =>
      after (quiet_mayThrow C .constructKey) fun _ => after (quiet_mayThrow C .constructValue) fun _ =>
        NoThrow.atomic (NoThrow.bind (noThrow_read _) fun a =>
          NoThrow.bind (noThrow_modify _) fun _ => noThrow_pure a)

theorem cell_done {p : Nat} {c : Cell K V} {m u : Memory K V} (h : cell p m = .done c u) :
    u = m ∧ m.heap.load p 0 = some c := by
  obtain ⟨found, v, hread, hrequire⟩ := bind_done h
  obtain ⟨rfl, rfl⟩ := read_done hread
  obtain ⟨hload, rfl⟩ := require_done hrequire
  exact ⟨rfl, hload⟩

theorem setCell_done {p : Nat} {c : Cell K V} {m u : Memory K V} (h : setCell p c m = .done () u) :
    ∃ heap, m.heap.store p 0 c = some heap ∧ u = { m with heap } := by
  obtain ⟨stored, v, hread, hrest⟩ := bind_done h
  obtain ⟨rfl, rfl⟩ := read_done hread
  obtain ⟨heap, w, hrequire, hmodify⟩ := bind_done hrest
  obtain ⟨hstore, rfl⟩ := require_done hrequire
  exact ⟨heap, hstore, modify_done hmodify⟩

/-- Storing a node under the old key, priority and links. -/
theorem outline_store {heap heap' : BlockHeap (Cell K V)} {p : Nat} {c c' : Cell K V}
    (hload : heap.load p 0 = some c) (hstore : heap.store p 0 c' = some heap')
    (hsame : outline c' = outline c) (q : Nat) :
    (heap'.block q).map (List.map outline) = (heap.block q).map (List.map outline) := by
  obtain ⟨slots, hblock, hslot⟩ := Option.bind_eq_some_iff.mp hload
  have hpos : 0 < slots.length := (List.getElem?_eq_some_iff.mp hslot).1
  rw [BlockHeap.store_eq hblock hpos, Option.some_inj] at hstore
  subst hstore
  by_cases hq : q = p
  · subst hq
    obtain ⟨hlt, rfl⟩ := List.getElem?_eq_some_iff.mp hslot
    rw [BlockHeap.block_write_self hblock, hblock, Option.map_some, Option.map_some, List.map_set,
      hsame, ← List.map_set, List.set_getElem_self]
  · rw [BlockHeap.block_write_of_ne hq]

theorem atomic_assignValue (p : Nat) (value : V) :
    Atomic (Kept true) (assignValue C p value) := by
  intro m t h
  rcases bind_threw h with hthrew | ⟨c, u, hcell, hafter⟩
  · exact absurd hthrew (noThrow_cell p m t)
  obtain ⟨rfl, hload⟩ := cell_done hcell
  rcases bind_threw hafter with hthrew | ⟨throws, v, hread, hcounted⟩
  · exact absurd hthrew (noThrow_read _ u t)
  obtain ⟨rfl, rfl⟩ := read_done hread
  rcases bind_threw hcounted with hthrew | ⟨_, w, hmodify, hrest⟩
  · exact absurd hthrew (noThrow_modify _ _ t)
  obtain rfl := modify_done hmodify
  cases hthrows : C.throwsAt .assignValue v.calls with
  | false =>
    rw [if_neg (by simp [hthrows])] at hrest
    exact absurd hrest (noThrow_setCell p _ _ t)
  | true =>
    rw [if_pos hthrows] at hrest
    rcases bind_threw hrest with hthrew | ⟨_, w, hset, hlast⟩
    · exact absurd hthrew (noThrow_setCell p _ _ t)
    obtain ⟨heap, hstore, rfl⟩ := setCell_done hset
    cases hlast
    refine ⟨⟨?_, rfl, rfl⟩, ?_⟩
    · exact outline_store hload hstore rfl
    · intro hrest
      simp at hrest

theorem atomic_insertImpl (assignOnMatch : Bool) (key : K) (value : V) (depth : Nat)
    (p : Option Nat) :
    Atomic (Kept assignOnMatch) (insertImpl C assignOnMatch key value depth p) := by
  induction depth generalizing p with
  | zero => exact noThrow_fail.atomic
  | succ depth ih =>
    cases p with
    | none =>
      exact after (quiet_setFlag true) fun _ =>
        Atomic.before_noThrow (atomic_newNode C assignOnMatch key value) fun a => noThrow_pure (some a)
    | some node =>
      refine after (quiet_cell node) fun c => after (quiet_compare C key c.key) fun less =>
        Atomic.ite ?_ (after (quiet_cell node) fun c =>
          after (quiet_compare C c.key key) fun greater => Atomic.ite ?_ ?_)
      · -- the links are set behind the recursive call
        exact Atomic.before_noThrow (ih c.left) fun l =>
          NoThrow.bind (noThrow_setLeft node l) fun _ => NoThrow.bind (noThrow_outranks l node)
            fun _ => NoThrow.ite
              (NoThrow.bind (noThrow_rotateRight node) fun a => noThrow_pure (some a))
              (noThrow_pure (some node))
      · exact Atomic.before_noThrow (ih c.right) fun r =>
          NoThrow.bind (noThrow_setRight node r) fun _ => NoThrow.bind (noThrow_outranks r node)
            fun _ => NoThrow.ite
              (NoThrow.bind (noThrow_rotateLeft node) fun a => noThrow_pure (some a))
              (noThrow_pure (some node))
      · cases assignOnMatch with
        | false => exact NoThrow.atomic (NoThrow.bind (noThrow_modify _) fun _ => noThrow_pure (some node))
        | true => exact Atomic.before_noThrow (atomic_assignValue C node value) fun _ =>
            NoThrow.bind (noThrow_modify _) fun _ => noThrow_pure (some node)

theorem atomic_eraseImpl (key : K) (depth : Nat) (p : Option Nat) :
    Atomic (Kept false) (eraseImpl C key depth p) := by
  induction depth generalizing p with
  | zero => exact noThrow_fail.atomic
  | succ depth ih =>
    cases p with
    | none => exact (noThrow_pure none).atomic
    | some node =>
      refine after (quiet_cell node) fun c => after (quiet_compare C key c.key) fun less =>
        Atomic.ite ?_ (after (quiet_cell node) fun c =>
          after (quiet_compare C c.key key) fun greater => Atomic.ite ?_ ?_)
      · exact Atomic.before_noThrow (ih c.left) fun l =>
          NoThrow.bind (noThrow_setLeft node l) fun _ => noThrow_pure (some node)
      · exact Atomic.before_noThrow (ih c.right) fun r =>
          NoThrow.bind (noThrow_setRight node r) fun _ => noThrow_pure (some node)
      · exact NoThrow.atomic (NoThrow.bind (noThrow_modify _) fun _ =>
          NoThrow.bind (noThrow_cell node) fun c =>
            NoThrow.bind (noThrow_merge depth c.left c.right) fun merged =>
              NoThrow.bind (noThrow_deleteNode node) fun _ => noThrow_pure merged)

theorem quiet_findFrom (key : K) (depth : Nat) (p : Option Nat) :
    Quiet Same (findFrom C key depth p) := by
  induction depth generalizing p with
  | zero => exact quiet_fail
  | succ depth ih =>
    cases p with
    | none => exact quiet_pure Same.refl none
    | some node =>
      refine Quiet.bind Same.trans (quiet_cell node) fun c =>
        Quiet.bind Same.trans (quiet_compare C key c.key) fun less => ?_
      split
      · exact ih c.left
      · refine Quiet.bind Same.trans (quiet_cell node) fun c =>
          Quiet.bind Same.trans (quiet_compare C c.key key) fun greater => ?_
        split
        · exact ih c.right
        · exact quiet_pure Same.refl (some c.value)

theorem atomic_insertWith (assignOnMatch : Bool) (key : K) (value : V) :
    Atomic (Kept assignOnMatch) (insertWith C assignOnMatch key value) :=
  after (quiet_setFlag false) fun _ => after (quiet_read Same.refl _) fun root =>
    after (quiet_read Same.refl _) fun depth =>
      Atomic.before_noThrow (atomic_insertImpl C assignOnMatch key value depth root) fun _ =>
        NoThrow.bind (noThrow_modify _) fun _ => NoThrow.bind (noThrow_read _) fun inserted =>
          NoThrow.ite (NoThrow.bind (noThrow_modify _) fun _ => noThrow_pure inserted)
            (noThrow_pure inserted)

theorem atomic_erase (key : K) : Atomic (Kept false) (erase C key) :=
  after (quiet_setFlag false) fun _ => after (quiet_read Same.refl _) fun root =>
    after (quiet_read Same.refl _) fun depth =>
      Atomic.before_noThrow (atomic_eraseImpl C key depth root) fun _ =>
        NoThrow.bind (noThrow_modify _) fun _ => NoThrow.bind (noThrow_read _) fun removed =>
          NoThrow.ite (NoThrow.bind (noThrow_modify _) fun _ => noThrow_pure removed)
            (noThrow_pure removed)

theorem quiet_find (key : K) : Quiet Same (find C key) :=
  Quiet.bind Same.trans (quiet_read Same.refl _) fun root =>
    Quiet.bind Same.trans (quiet_read Same.refl _) fun depth => quiet_findFrom C key depth root

theorem noThrow_clear : NoThrow (clear : Code (Memory K V) Unit) :=
  NoThrow.bind (noThrow_read _) fun root => NoThrow.bind (noThrow_read _) fun depth =>
    NoThrow.bind (noThrow_destroySubtree depth root) fun _ => noThrow_modify _

/-- The operation may assign to the value of a node that is there. -/
def assigns : Op K V → Bool
  | .insertOrAssign _ _ => true
  | _ => false

theorem atomic_perform (op : Op K V) : Atomic (Kept (assigns op)) (perform C op) := by
  cases op with
  | insert key value =>
    exact Atomic.before_noThrow (atomic_insertWith C false key value) fun _ => noThrow_pure _
  | insertOrAssign key value =>
    exact Atomic.before_noThrow (atomic_insertWith C true key value) fun _ => noThrow_pure _
  | erase key => exact Atomic.before_noThrow (atomic_erase C key) fun _ => noThrow_pure _
  | find key => exact after (quiet_find C key) fun _ => (noThrow_pure _).atomic
  | contains key => exact after (quiet_find C key) fun _ => (noThrow_pure _).atomic
  | size => exact (NoThrow.bind (noThrow_read _) fun _ => noThrow_pure _).atomic
  | empty => exact (NoThrow.bind (noThrow_read _) fun _ => noThrow_pure _).atomic
  | clear => exact (NoThrow.bind noThrow_clear fun _ => noThrow_pure _).atomic

end Members

/-! ## Runs -/

section Runs

variable {m t : Memory K V}

theorem holds_of_outline {h h' : BlockHeap (Cell K V)} {p : Option Nat} {t : Node K V}
    {addrs : List Nat} (hold : Holds h p t addrs)
    (same : ∀ a, (h'.block a).map (List.map outline) = (h.block a).map (List.map outline)) :
    ∃ t', Holds h' p t' addrs ∧ t'.count = t.count := by
  induction hold with
  | nil => exact ⟨.nil, Holds.nil, rfl⟩
  | node block left right ihl ihr =>
    rename_i a c l r la ra
    obtain ⟨l', hl, hlcount⟩ := ihl
    obtain ⟨r', hr, hrcount⟩ := ihr
    have hblock := same a
    rw [block] at hblock
    obtain ⟨slots, hslots, hmap⟩ := Option.map_eq_some_iff.mp hblock
    obtain ⟨c', rest, rfl, houtline, hnil⟩ := List.map_eq_cons_iff.mp hmap
    obtain rfl := List.map_eq_nil_iff.mp hnil
    simp only [outline, Prod.mk.injEq] at houtline
    obtain ⟨-, -, hleft, hright⟩ := houtline
    rw [← hleft] at hl
    rw [← hright] at hr
    exact ⟨_, Holds.node hslots hl hr, by simp only [count_node, hlcount, hrcount]⟩

/-- A map that an exception has come out of is a map. -/
theorem represents_of_outline {tree : TreapMap K V} (h : Represents m tree)
    (same : SameOutline m t) : ∃ tree', Represents t tree' := by
  obtain ⟨addrs, hold, nodup⟩ := h.tree
  obtain ⟨root, hroot, hcount⟩ := holds_of_outline hold same.nodes
  rw [← same.root] at hroot
  refine ⟨{ root, size := tree.size, drawn := t.drawn }, ⟨addrs, hroot, nodup⟩, ?_, ?_, rfl⟩
  · rw [same.size, h.size]
  · rw [h.count, hcount]

/-- In every program, whatever calls throw, the map stays a tree, and nothing undefined
is done. -/
theorem run_represents (C : Client K V) {ops : List (Op K V)} {trace : List (Event V)}
    (h : (machine C).Run {} ops m trace) : (∃ tree, Represents m tree) ∧ Event.fault ∉ trace := by
  apply h.invariant (I := fun m trace => (∃ tree, Represents m tree) ∧ Event.fault ∉ trace)
  · exact ⟨⟨{}, represents_start⟩, List.not_mem_nil⟩
  · intro m trace op u seen hI hstep
    obtain ⟨⟨tree, hrep⟩, hfault⟩ := hI
    rcases (hrep.perform C op).cases with ⟨r, t, hdone, -, hrep'⟩ | ⟨t, hthrew, -⟩
    · simp only [machine, hdone, Option.some.injEq, Prod.mk.injEq] at hstep
      obtain ⟨rfl, rfl⟩ := hstep
      exact ⟨⟨_, hrep'⟩, by simp [hfault]⟩
    · have hkept := atomic_perform C op m t hthrew
      simp only [machine, hthrew, Option.some.injEq, Prod.mk.injEq] at hstep
      obtain ⟨rfl, rfl⟩ := hstep
      exact ⟨represents_of_outline hrep hkept.outline, by simp [hfault]⟩

/-- In every map that a program reaches, whatever calls throw, an operation does nothing
undefined; when it throws, every node, link, key, value and priority, the root and `size_`
are as before the call, but for values where `insert_or_assign` was assigning one. -/
theorem failed_operations_atomic (C : Client K V) {ops : List (Op K V)} {trace : List (Event V)}
    (h : (machine C).Run {} ops m trace) (op : Op K V) :
    perform C op m ≠ .fault ∧
      ∀ t, perform C op m = .threw t →
        SameOutline m t ∧ (assigns op = false ∨ t.failed ≠ some .assignValue → Same m t) := by
  obtain ⟨tree, hrep⟩ := (run_represents C h).1
  refine ⟨?_, ?_⟩
  · intro hfault
    have hspec := hrep.perform C op
    unfold Ensures at hspec
    rw [hfault] at hspec
    exact hspec
  · intro t hthrew
    have hkept := atomic_perform C op m t hthrew
    exact ⟨hkept.outline, hkept.rest⟩

/-- Numbers in order, all of one priority, where the call number `k` throws. -/
def failing (k : Nat) : Client Int Int where
  comp a b := decide (a < b)
  draw _ := 0
  throwsAt _ n := n == k
  torn _ _ := 0

/-- The map with 10 under the key 1. -/
def oneNode : Memory Int Int := ((machine (failing 7)).exec {} [.insert 1 10]).get rfl |>.1

theorem oneNode_run : (machine (failing 7)).Run {} [.insert 1 10] oneNode [.result (.flag true)] := rfl

/-- The second insertion has compared twice, allocated the node and constructed its key
when the construction of its value throws. -/
theorem failed_operations_atomic_insert :
    ∃ t, perform (failing 7) (.insert 2 20) oneNode = .threw t ∧
      t.failed = some .constructValue ∧ Same oneNode t := by
  obtain ⟨t, hthrew, hfailed⟩ : ∃ t, perform (failing 7) (.insert 2 20) oneNode = .threw t ∧
      t.failed = some .constructValue := ⟨_, rfl, rfl⟩
  have hkept := (failed_operations_atomic (failing 7) oneNode_run (.insert 2 20)).2 t hthrew
  exact ⟨t, hthrew, hfailed, hkept.2 (Or.inl rfl)⟩

end Runs

end CppCodes.Guarantees.TreapExceptions
