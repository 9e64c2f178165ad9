import CppCodes.Library.KeyedList
import CppCodes.Library.Machine

/-!
# The treap

Source: treap/treap.hpp:43-97 and 99-201. Nodes are values, so a pointer is the
subtree behind it. The priorities that `random_priority` will return are a
parameter, read one after the other; `size_` is counted in `Nat`, since a map of
`2 ^ 64` nodes has no room in memory.
-/

set_option autoImplicit false

namespace CppCodes.Source.Treap

open CppCodes.Library

inductive Node (K V : Type) where
  | nil
  | node (left : Node K V) (key : K) (value : V) (priority : UInt32) (right : Node K V)
  deriving DecidableEq

namespace Node

variable {K V : Type}

/-- Only called with a right child. -/
def rotateLeft : Node K V → Node K V
  | .node a kx vx px (.node b ky vy py c) => .node (.node a kx vx px b) ky vy py c
  | x => x

/-- Only called with a left child. -/
def rotateRight : Node K V → Node K V
  | .node (.node a kx vx px b) ky vy py c => .node a kx vx px (.node b ky vy py c)
  | y => y

/-- `child && child->priority > priority`. -/
def outranks : Node K V → UInt32 → Bool
  | .nil, _ => false
  | .node _ _ _ p _, q => p > q

variable (comp : K → K → Bool)

/-- The new subtree and `inserted`; `p` is the priority a new node gets. -/
def insertImpl (assignOnMatch : Bool) (key : K) (value : V) (p : UInt32) :
    Node K V → Node K V × Bool
  | .nil => (.node .nil key value p .nil, true)
  | .node l k v q r =>
      if comp key k then
        let (l', inserted) := insertImpl assignOnMatch key value p l
        let node := Node.node l' k v q r
        (if l'.outranks q then node.rotateRight else node, inserted)
      else if comp k key then
        let (r', inserted) := insertImpl assignOnMatch key value p r
        let node := Node.node l k v q r'
        (if r'.outranks q then node.rotateLeft else node, inserted)
      else (.node l k (if assignOnMatch then value else v) q r, false)

/-- `merge(a, b)` as a recursion down `b`, for a node `a` of priority `pa`;
`takeRight` is what it becomes where `a` stays on top. -/
def mergeUnder (a : Node K V) (pa : UInt32) (takeRight : Node K V → Node K V) :
    Node K V → Node K V
  | .nil => a
  | .node l k v pb r =>
      if pa > pb then takeRight (.node l k v pb r)
      else .node (mergeUnder a pa takeRight l) k v pb r

def merge : Node K V → Node K V → Node K V
  | .nil => fun b => b
  | .node l k v pa r =>
      mergeUnder (.node l k v pa r) pa fun b => .node l k v pa (merge r b)

/-- The new subtree and `removed`. -/
def eraseImpl (key : K) : Node K V → Node K V × Bool
  | .nil => (.nil, false)
  | .node l k v q r =>
      if comp key k then
        let (l', removed) := eraseImpl key l
        (.node l' k v q r, removed)
      else if comp k key then
        let (r', removed) := eraseImpl key r
        (.node l k v q r', removed)
      else (merge l r, true)

def find (key : K) : Node K V → Option V
  | .nil => none
  | .node l k v _ r =>
      if comp key k then find key l
      else if comp k key then find key r
      else some v

end Node

/-- `drawn` is how many priorities have been read. -/
structure TreapMap (K V : Type) where
  root : Node K V := .nil
  size : Nat := 0
  drawn : Nat := 0
  deriving DecidableEq

inductive Op (K V : Type) where
  | insert (key : K) (value : V)
  | insertOrAssign (key : K) (value : V)
  | erase (key : K)
  | find (key : K)
  | contains (key : K)
  | size
  | empty
  | clear

inductive Result (V : Type) where
  | flag (b : Bool)
  | value (found : Option V)
  | count (n : Nat)
  | done
  deriving DecidableEq

namespace TreapMap

variable {K V : Type} (comp : K → K → Bool) (draw : Nat → UInt32)

def insertWith (assignOnMatch : Bool) (m : TreapMap K V) (key : K) (value : V) :
    TreapMap K V × Bool :=
  let (root, inserted) := m.root.insertImpl comp assignOnMatch key value (draw m.drawn)
  if inserted then ({ root, size := m.size + 1, drawn := m.drawn + 1 }, true)
  else ({ m with root }, false)

def insert : TreapMap K V → K → V → TreapMap K V × Bool := insertWith comp draw false

def insertOrAssign : TreapMap K V → K → V → TreapMap K V × Bool := insertWith comp draw true

def erase (m : TreapMap K V) (key : K) : TreapMap K V × Bool :=
  let (root, removed) := m.root.eraseImpl comp key
  if removed then ({ m with root, size := m.size - 1 }, true) else ({ m with root }, false)

def find (m : TreapMap K V) (key : K) : Option V := m.root.find comp key

def contains (m : TreapMap K V) (key : K) : Bool := (m.find comp key).isSome

def empty (m : TreapMap K V) : Bool := m.size == 0

def clear (m : TreapMap K V) : TreapMap K V := { m with root := .nil, size := 0 }

def apply (m : TreapMap K V) : Op K V → TreapMap K V × Result V
  | .insert key value => ((m.insert comp draw key value).1, .flag (m.insert comp draw key value).2)
  | .insertOrAssign key value =>
      ((m.insertOrAssign comp draw key value).1, .flag (m.insertOrAssign comp draw key value).2)
  | .erase key => ((m.erase comp key).1, .flag (m.erase comp key).2)
  | .find key => (m, .value (m.find comp key))
  | .contains key => (m, .flag (m.contains comp key))
  | .size => (m, .count m.size)
  | .empty => (m, .flag m.empty)
  | .clear => (m.clear, .done)

def machine : Machine (TreapMap K V) (Op K V) (Result V) where
  step m op := some ((m.apply comp draw op).1, [(m.apply comp draw op).2])

end TreapMap

/-! ## The entries in order

Rotations and merging do not change the nodes from left to right, so neither the
shape of the tree nor a priority has a part in what the map holds. -/

/-- Key, value and priority of a node. -/
abbrev Slot (K V : Type) := K × V × UInt32

namespace Node

variable {K V : Type}

/-- The live nodes from left to right. -/
def slots : Node K V → List (Slot K V)
  | .nil => []
  | .node l k v p r => l.slots ++ (k, v, p) :: r.slots

def entries : Node K V → List (K × V)
  | .nil => []
  | .node l k v _ r => l.entries ++ (k, v) :: r.entries

theorem entries_eq_slots (t : Node K V) : t.entries = t.slots.map fun x => (x.1, x.2.1) := by
  induction t with
  | nil => rfl
  | node l k v p r ihl ihr => rw [entries, ihl, ihr, slots, List.map_append, List.map_cons]

theorem slots_rotateLeft (t : Node K V) : t.rotateLeft.slots = t.slots := by
  unfold rotateLeft
  split
  · simp [slots]
  · rfl

theorem slots_rotateRight (t : Node K V) : t.rotateRight.slots = t.slots := by
  unfold rotateRight
  split
  · simp [slots]
  · rfl

theorem slots_mergeUnder {a : Node K V} {pa : UInt32} {takeRight : Node K V → Node K V}
    (h : ∀ b, (takeRight b).slots = a.slots ++ b.slots) (b : Node K V) :
    (mergeUnder a pa takeRight b).slots = a.slots ++ b.slots := by
  induction b with
  | nil => simp [mergeUnder, slots]
  | node l k v pb r ihl ihr =>
    unfold mergeUnder
    split
    · exact h _
    · rw [slots, ihl, slots, List.append_assoc]

theorem slots_merge (a b : Node K V) : (merge a b).slots = a.slots ++ b.slots := by
  induction a generalizing b with
  | nil => rfl
  | node l k v pa r ihl ihr =>
    refine slots_mergeUnder ?_ b
    intro b
    rw [slots, ihr, slots, List.append_assoc, List.cons_append]

theorem entries_rotateLeft (t : Node K V) : t.rotateLeft.entries = t.entries := by
  rw [entries_eq_slots, slots_rotateLeft, ← entries_eq_slots]

theorem entries_rotateRight (t : Node K V) : t.rotateRight.entries = t.entries := by
  rw [entries_eq_slots, slots_rotateRight, ← entries_eq_slots]

/-- The two recursive calls of `merge`, as the source has them. -/
theorem merge_node (la ra lb rb : Node K V) (ka kb : K) (va vb : V) (pa pb : UInt32) :
    merge (.node la ka va pa ra) (.node lb kb vb pb rb) =
      if pa > pb then .node la ka va pa (merge ra (.node lb kb vb pb rb))
      else .node (merge (.node la ka va pa ra) lb) kb vb pb rb := rfl

section Search

variable {comp : K → K → Bool} [IsStrictWeakOrder K fun a b => comp a b = true]

theorem find_spec {t : Node K V} (h : KeyedList.Sorted comp t.entries) (key : K) :
    t.find comp key = KeyedList.lookup comp key t.entries := by
  induction t with
  | nil => rfl
  | node l k v q r ihl ihr =>
    obtain ⟨hl, hr, -, -⟩ := KeyedList.sorted_middle h
    rw [entries, KeyedList.lookup_middle h, find, ihl hl, ihr hr]

/-- `insert_impl` inserts into the entries, and says whether the key was new. -/
theorem insertImpl_spec {t : Node K V} (h : KeyedList.Sorted comp t.entries)
    (assignOnMatch : Bool) (key : K) (value : V) (p : UInt32) :
    (t.insertImpl comp assignOnMatch key value p).1.entries =
        KeyedList.insert comp assignOnMatch key value t.entries ∧
      (t.insertImpl comp assignOnMatch key value p).2 =
        (KeyedList.lookup comp key t.entries).isNone := by
  induction t with
  | nil => exact ⟨rfl, rfl⟩
  | node l k v q r ihl ihr =>
    obtain ⟨hl, hr, -, -⟩ := KeyedList.sorted_middle h
    obtain ⟨hleft, hleftNew⟩ := ihl hl
    obtain ⟨hright, hrightNew⟩ := ihr hr
    rw [entries, KeyedList.insert_middle h, KeyedList.lookup_middle h, insertImpl]
    by_cases hbefore : comp key k = true
    · rw [if_pos hbefore, if_pos hbefore, if_pos hbefore]
      refine ⟨?_, hleftNew⟩
      dsimp only
      split
      · rw [entries_rotateRight, entries, hleft]
      · rw [entries, hleft]
    · rw [if_neg hbefore, if_neg hbefore, if_neg hbefore]
      by_cases hafter : comp k key = true
      · rw [if_pos hafter, if_pos hafter, if_pos hafter]
        refine ⟨?_, hrightNew⟩
        dsimp only
        split
        · rw [entries_rotateLeft, entries, hright]
        · rw [entries, hright]
      · rw [if_neg hafter, if_neg hafter, if_neg hafter]
        exact ⟨rfl, rfl⟩

/-- With their priorities, the nodes that `erase_impl` leaves. -/
theorem eraseImpl_slots {t : Node K V} (h : KeyedList.Sorted comp t.slots) (key : K) :
    (t.eraseImpl comp key).1.slots = KeyedList.erase comp key t.slots := by
  induction t with
  | nil => rfl
  | node l k v q r ihl ihr =>
    obtain ⟨hl, hr, -, -⟩ := KeyedList.sorted_middle h
    rw [slots, KeyedList.erase_middle h, eraseImpl]
    by_cases hbefore : comp key k = true
    · rw [if_pos hbefore, if_pos hbefore, slots, ihl hl]
    · rw [if_neg hbefore, if_neg hbefore]
      by_cases hafter : comp k key = true
      · rw [if_pos hafter, if_pos hafter, slots, ihr hr]
      · rw [if_neg hafter, if_neg hafter, slots_merge]

/-- `erase_impl` erases from the entries, and says whether the key was there. -/
theorem eraseImpl_spec {t : Node K V} (h : KeyedList.Sorted comp t.entries) (key : K) :
    (t.eraseImpl comp key).1.entries = KeyedList.erase comp key t.entries ∧
      (t.eraseImpl comp key).2 = (KeyedList.lookup comp key t.entries).isSome := by
  refine ⟨?_, ?_⟩
  · have hslots : KeyedList.Sorted comp t.slots :=
      (KeyedList.sorted_map_values Prod.fst).mp (by rwa [← entries_eq_slots])
    rw [entries_eq_slots, entries_eq_slots, eraseImpl_slots hslots]
    exact (KeyedList.erase_map_values Prod.fst key t.slots).symm
  · induction t with
    | nil => rfl
    | node l k v q r ihl ihr =>
      obtain ⟨hl, hr, -, -⟩ := KeyedList.sorted_middle h
      rw [entries, KeyedList.lookup_middle h, eraseImpl]
      by_cases hbefore : comp key k = true
      · rw [if_pos hbefore, if_pos hbefore]
        exact ihl hl
      · rw [if_neg hbefore, if_neg hbefore]
        by_cases hafter : comp k key = true
        · rw [if_pos hafter, if_pos hafter]
          exact ihr hr
        · rw [if_neg hafter, if_neg hafter]
          rfl

/-- A new key comes with the priority drawn for it; the other nodes keep theirs. -/
theorem insertImpl_slots {t : Node K V} (h : KeyedList.Sorted comp t.slots)
    (assignOnMatch : Bool) {key : K} (fresh : KeyedList.lookup comp key t.slots = none) (value : V)
    (p : UInt32) :
    (t.insertImpl comp assignOnMatch key value p).1.slots =
      KeyedList.insert comp false key (value, p) t.slots := by
  induction t with
  | nil => rfl
  | node l k v q r ihl ihr =>
    obtain ⟨hl, hr, -, -⟩ := KeyedList.sorted_middle h
    rw [slots, KeyedList.lookup_middle h] at fresh
    rw [slots, KeyedList.insert_middle h, insertImpl]
    by_cases hbefore : comp key k = true
    · rw [if_pos hbefore] at fresh
      rw [if_pos hbefore, if_pos hbefore]
      dsimp only
      split
      · rw [slots_rotateRight, slots, ihl hl fresh]
      · rw [slots, ihl hl fresh]
    · rw [if_neg hbefore] at fresh
      rw [if_neg hbefore, if_neg hbefore]
      by_cases hafter : comp k key = true
      · rw [if_pos hafter] at fresh
        rw [if_pos hafter, if_pos hafter]
        dsimp only
        split
        · rw [slots_rotateLeft, slots, ihr hr fresh]
        · rw [slots, ihr hr fresh]
      · rw [if_neg hafter] at fresh
        cases fresh

end Search

end Node

end CppCodes.Source.Treap
