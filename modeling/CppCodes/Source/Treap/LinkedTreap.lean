import CppCodes.Library.BlockHeap
import CppCodes.Library.FailureAtomicity
import CppCodes.Source.Treap.TreapMap

/-!
# The treap with its nodes in memory

Source: treap/treap.hpp:43-97 and 99-202, statement by statement. A node is a block of
one slot, a `Node*` its address or null. The comparator, the allocation of a node, the
construction of its key and value and the assignment of a value may throw at any call.
The arguments of a call are objects of the caller, not of the map.

The recursions take a bound on their depth, one more than `size_`; running out of it is
counted as a fault, and no run has one.
-/

set_option autoImplicit false

namespace CppCodes.Source.Treap.Linked

open Library Library.Code

variable {K V : Type}

structure Cell (K V : Type) where
  key : K
  value : V
  priority : UInt32
  left : Option Nat := none
  right : Option Nat := none

/-- The calls that may throw. -/
inductive Call where
  | compare
  | allocate
  | constructKey
  | constructValue
  | assignValue
  deriving DecidableEq

/-- What the class template is instantiated with. Of the calls made since the start, the
`k`-th throws if it is of the kind `c` and `throwsAt c k`; a value assignment that throws
leaves `torn old new`. -/
structure Client (K V : Type) where
  comp : K → K → Bool
  draw : Nat → UInt32
  throwsAt : Call → Nat → Bool
  torn : V → V → V

/-- `flag` is the local variable that `inserted` or `removed` refers to, `failed` the kind
of the last call that threw. -/
structure Memory (K V : Type) where
  heap : BlockHeap (Cell K V) := .empty
  root : Option Nat := none
  size : Nat := 0
  drawn : Nat := 0
  flag : Bool := false
  calls : Nat := 0
  failed : Option Call := none

section Primitives

variable (C : Client K V)

def mayThrow (c : Call) : Code (Memory K V) Unit := fun m =>
  if C.throwsAt c m.calls then .threw { m with calls := m.calls + 1, failed := some c }
  else .done () { m with calls := m.calls + 1 }

/-- `*p` -/
def cell (p : Nat) : Code (Memory K V) (Cell K V) := do
  let c ← Code.read fun m => m.heap.load p 0
  require c

def setCell (p : Nat) (c : Cell K V) : Code (Memory K V) Unit := do
  let stored ← Code.read fun m => m.heap.store p 0 c
  let h ← require stored
  modify fun m => { m with heap := h }

def setLeft (p : Nat) (q : Option Nat) : Code (Memory K V) Unit := do
  let c ← cell p
  setCell p { c with left := q }

def setRight (p : Nat) (q : Option Nat) : Code (Memory K V) Unit := do
  let c ← cell p
  setCell p { c with right := q }

def setFlag (b : Bool) : Code (Memory K V) Unit := modify fun m => { m with flag := b }

/-- `comp_(a, b)` -/
def compare (a b : K) : Code (Memory K V) Bool := do
  mayThrow C .compare
  return C.comp a b

/-- `new Node(key, value, random_priority())`: what has been allocated is released when
the construction throws. -/
def newNode (key : K) (value : V) : Code (Memory K V) Nat := do
  mayThrow C .allocate
  let n ← Code.read Memory.drawn
  modify fun m => { m with drawn := m.drawn + 1 }
  mayThrow C .constructKey
  mayThrow C .constructValue
  let a ← Code.read fun m => m.heap.next
  modify fun m => { m with heap := m.heap.alloc [{ key, value, priority := C.draw n }] }
  return a

/-- `delete p` -/
def deleteNode (p : Nat) : Code (Memory K V) Unit := do
  let freed ← Code.read fun m => m.heap.free p
  let h ← require freed
  modify fun m => { m with heap := h }

/-- `node->value = value` -/
def assignValue (p : Nat) (value : V) : Code (Memory K V) Unit := do
  let c ← cell p
  let throws ← Code.read fun m => C.throwsAt .assignValue m.calls
  modify fun m => { m with calls := m.calls + 1 }
  if throws then
    setCell p { c with value := C.torn c.value value }
    modify fun m => { m with failed := some .assignValue }
    raise
  else setCell p { c with value := value }

end Primitives

/-! ## The members -/

def rotateLeft (x : Nat) : Code (Memory K V) Nat := do
  let cx ← cell x
  let y ← require cx.right
  let cy ← cell y
  setRight x cy.left
  setLeft y (some x)
  return y

def rotateRight (y : Nat) : Code (Memory K V) Nat := do
  let cy ← cell y
  let x ← require cy.left
  let cx ← cell x
  setLeft y cx.right
  setRight x (some y)
  return x

/-- `child && child->priority > node->priority` -/
def outranks (child : Option Nat) (node : Nat) : Code (Memory K V) Bool :=
  match child with
  | none => return false
  | some p => do
      let c ← cell p
      let n ← cell node
      return c.priority > n.priority

variable (C : Client K V)

def insertImpl (assignOnMatch : Bool) (key : K) (value : V) :
    Nat → Option Nat → Code (Memory K V) (Option Nat)
  | 0, _ => fail
  | _ + 1, none => do
      setFlag true
      let p ← newNode C key value
      return some p
  | depth + 1, some node => do
      let c ← cell node
      if ← compare C key c.key then
        let l ← insertImpl assignOnMatch key value depth c.left
        setLeft node l
        if ← outranks l node then
          let p ← rotateRight node
          return some p
        else return some node
      else
        let c ← cell node
        if ← compare C c.key key then
          let r ← insertImpl assignOnMatch key value depth c.right
          setRight node r
          if ← outranks r node then
            let p ← rotateLeft node
            return some p
          else return some node
        else
          if assignOnMatch then assignValue C node value else pure ()
          setFlag false
          return some node

def merge : Nat → Option Nat → Option Nat → Code (Memory K V) (Option Nat)
  | 0, _, _ => fail
  | _ + 1, none, b => return b
  | _ + 1, some a, none => return some a
  | depth + 1, some a, some b => do
      let ca ← cell a
      let cb ← cell b
      if ca.priority > cb.priority then
        let r ← merge depth ca.right (some b)
        setRight a r
        return some a
      else
        let l ← merge depth (some a) cb.left
        setLeft b l
        return some b

def eraseImpl (key : K) : Nat → Option Nat → Code (Memory K V) (Option Nat)
  | 0, _ => fail
  | _ + 1, none => return none
  | depth + 1, some node => do
      let c ← cell node
      if ← compare C key c.key then
        let l ← eraseImpl key depth c.left
        setLeft node l
        return some node
      else
        let c ← cell node
        if ← compare C c.key key then
          let r ← eraseImpl key depth c.right
          setRight node r
          return some node
        else
          setFlag true
          let c ← cell node
          let merged ← merge depth c.left c.right
          deleteNode node
          return merged

/-- The loop of `find`. -/
def findFrom (key : K) : Nat → Option Nat → Code (Memory K V) (Option V)
  | 0, _ => fail
  | _ + 1, none => return none
  | depth + 1, some node => do
      let c ← cell node
      if ← compare C key c.key then findFrom key depth c.left
      else
        let c ← cell node
        if ← compare C c.key key then findFrom key depth c.right
        else return some c.value

def destroySubtree : Nat → Option Nat → Code (Memory K V) Unit
  | 0, _ => fail
  | _ + 1, none => return
  | depth + 1, some node => do
      let c ← cell node
      destroySubtree depth c.left
      let c ← cell node
      destroySubtree depth c.right
      deleteNode node

/-- `insert` and `insert_or_assign` -/
def insertWith (assignOnMatch : Bool) (key : K) (value : V) : Code (Memory K V) Bool := do
  setFlag false
  let root ← Code.read Memory.root
  let depth ← Code.read fun m => m.size + 1
  let root ← insertImpl C assignOnMatch key value depth root
  modify fun m => { m with root := root }
  let inserted ← Code.read Memory.flag
  if inserted then modify fun m => { m with size := m.size + 1 } else pure ()
  return inserted

def erase (key : K) : Code (Memory K V) Bool := do
  setFlag false
  let root ← Code.read Memory.root
  let depth ← Code.read fun m => m.size + 1
  let root ← eraseImpl C key depth root
  modify fun m => { m with root := root }
  let removed ← Code.read Memory.flag
  if removed then modify fun m => { m with size := m.size - 1 } else pure ()
  return removed

def find (key : K) : Code (Memory K V) (Option V) := do
  let root ← Code.read Memory.root
  let depth ← Code.read fun m => m.size + 1
  findFrom C key depth root

def clear : Code (Memory K V) Unit := do
  let root ← Code.read Memory.root
  let depth ← Code.read fun m => m.size + 1
  destroySubtree depth root
  modify fun m => { m with root := none, size := 0 }

def perform : Op K V → Code (Memory K V) (Result V)
  | .insert key value => do return .flag (← insertWith C false key value)
  | .insertOrAssign key value => do return .flag (← insertWith C true key value)
  | .erase key => do return .flag (← erase C key)
  | .find key => do return .value (← find C key)
  | .contains key => do return .flag (← find C key).isSome
  | .size => do return .count (← Code.read Memory.size)
  | .empty => do return .flag ((← Code.read Memory.size) == 0)
  | .clear => do clear; return .done

inductive Event (V : Type) where
  | result (r : Result V)
  | threw
  | fault
  deriving DecidableEq

/-- Programs over one map; they go on after an exception. -/
def machine : Machine (Memory K V) (Op K V) (Event V) where
  step m op :=
    match perform C op m with
    | .done r t => some (t, [.result r])
    | .threw t => some (t, [.threw])
    | .fault => some (m, [.fault])

end CppCodes.Source.Treap.Linked
