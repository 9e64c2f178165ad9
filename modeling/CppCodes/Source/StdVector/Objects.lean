import CppCodes.Library.BlockHeap
import CppCodes.Library.Fallible
import CppCodes.Library.Machine
import Mathlib.Algebra.Ring.Nat

/-!
# Vector objects on a heap

Source: std_vector/vector_basic.cpp:27-156, std_vector/vec_1.cpp:8-100. The two
files define a class template `my_vec` each, with the same members; the ones whose
text is the same in both are here.

A vector is a pointer, a size and a capacity, both `size_t`. It is named by a number:
two names are two objects, so `this == &o` compares names. The pointer leads to a
block of the heap or to nothing, and every access to a slot is checked.
-/

set_option autoImplicit false

namespace CppCodes.Source.StdVector

open Library Library.Code

/-- The element type as the templates see it, and which calls throw: of the calls
that may throw, counted from the start of the program, the `k`-th does if `throwsAt k`. -/
structure Element (T : Type) where
  init : T
  ofSize : Nat → T
  movedFrom : T → T
  nothrowMoveAssignable : Bool
  copyAssignable : Bool
  throwsAt : Nat → Bool

/-- The expression a buffer comes from, `new T[n]` or `new T(n)`. The language keeps it
with the pointer: `delete[]` is for the first only. -/
inductive Form where
  | array
  | object
  deriving DecidableEq

structure MyVec where
  data : Option Nat
  size : Nat
  cap : Nat
  form : Form
  deriving DecidableEq

/-- The heap, the vectors that exist and the number of calls made so far that may throw. -/
structure Memory (T : Type) where
  heap : BlockHeap T
  vecs : Nat → Option MyVec
  calls : Nat

namespace Memory

variable {T : Type}

def start : Memory T := ⟨BlockHeap.empty, fun _ => none, 0⟩

/-- The slots a pointer leads to. The null pointer leads to none. -/
def slotsAt (heap : BlockHeap T) : Option Nat → Option (List T)
  | none => some []
  | some a => heap.block a

def sizes (m : Memory T) : Nat → Option Nat := fun v => (m.vecs v).map MyVec.size

end Memory

def sizeT (n : Nat) : Nat := n % 2 ^ 64

section Primitives

variable {T : Type} (E : Element T)

/-- The members of the vector named `v`. -/
def members (v : Nat) : Code (Memory T) MyVec := do
  let f ← Code.read fun m => m.vecs v
  require f

def setMembers (v : Nat) (f : Option MyVec) : Code (Memory T) Unit :=
  modify fun m => { m with vecs := Function.update m.vecs v f }

def setHeap (heap : Option (BlockHeap T)) : Code (Memory T) Unit := do
  let h ← require heap
  modify fun m => { m with heap := h }

/-- A call that may throw. -/
def mayThrow : Code (Memory T) Unit := fun m =>
  if E.throwsAt m.calls then .threw { m with calls := m.calls + 1 }
  else .done () { m with calls := m.calls + 1 }

def mayThrowOnMove : Code (Memory T) Unit :=
  if E.nothrowMoveAssignable then pure () else mayThrow E

/-- `new T[n]`. No array has `2 ^ 63` elements: the expression then throws. -/
def newArray (n : Nat) : Code (Memory T) Nat := do
  mayThrow E
  if 2 ^ 63 ≤ n then raise else
    let a ← Code.read fun m => m.heap.next
    modify fun m => { m with heap := m.heap.alloc (List.replicate n E.init) }
    return a

/-- `delete[] p`. It is undefined for a pointer that `new T(n)` returned. -/
def deleteArray : Form → Option Nat → Code (Memory T) Unit
  | _, none => pure ()
  | .object, some _ => fail
  | .array, some a => do
      let freed ← Code.read fun m => m.heap.free a
      setHeap freed

/-- The value of `p[i]`. -/
def loadSlot (p : Option Nat) (i : Nat) : Code (Memory T) T := do
  let x ← Code.read fun m => p.bind fun a => m.heap.load a i
  require x

def storeSlot (p : Option Nat) (i : Nat) (x : T) : Code (Memory T) Unit := do
  let stored ← Code.read fun m => p.bind fun a => m.heap.store a i x
  setHeap stored

/-- `to[i] = from[i]` -/
def copySlot (dst src : Option Nat) (i : Nat) : Code (Memory T) Unit := do
  let x ← loadSlot src i
  mayThrow E
  storeSlot dst i x

/-- `to[i] = std::move(from[i])` -/
def moveSlot (dst src : Option Nat) (i : Nat) : Code (Memory T) Unit := do
  let x ← loadSlot src i
  mayThrowOnMove E
  storeSlot dst i x
  storeSlot src i (E.movedFrom x)

/-- `std::copy(il.begin(), il.end(), dst)` -/
def copyList (dst : Option Nat) (il : List T) : Code (Memory T) Unit :=
  forRange (fun i => do
    let x ← require il[i]?
    mayThrow E
    storeSlot dst i x) 0 il.length

end Primitives

/-- What a reference parameter is bound to: an object outside every vector, or the
slot `i` of the vector `v`. -/
inductive Arg (T : Type) where
  | temporary (x : T)
  | slot (v i : Nat)

/-- An argument of `emplace_back` that refers to the element `v[i]` or to a part of it, as
the constructor of the new element uses it: `left` says what it leaves of `v[i]`, where
it does not only read. -/
structure Forwarded (T : Type) where
  v : Nat
  i : Nat
  left : Option (T → T)

section Members

variable {T : Type} (E : Element T)

/-- The value of an element, for a constructor that may throw before it takes anything. -/
def Forwarded.take (a : Forwarded T) : Code (Memory T) T := do
  let f ← members a.v
  let x ← loadSlot f.data a.i
  mayThrow E
  match a.left with
  | none => return x
  | some left =>
      storeSlot f.data a.i (left x)
      return x

/-- `T tmp = value` -/
def Arg.copy : Arg T → Code (Memory T) T
  | .temporary x => do
      mayThrow E
      return x
  | .slot v i => Forwarded.take E ⟨v, i, none⟩

/-- `T tmp = std::move(value)` -/
def Arg.move : Arg T → Code (Memory T) T
  | .temporary x => do
      mayThrow E
      return x
  | .slot v i => Forwarded.take E ⟨v, i, some E.movedFrom⟩

/-- The arguments in the order in which the constructor comes to them. -/
def takeAll : List (Forwarded T) → Code (Memory T) (List T)
  | [] => pure []
  | a :: args => do
      let x ← a.take E
      let xs ← takeAll args
      return x :: xs

/-- `T tmp(std::forward<Args>(args)...)`. The constructor `make` sees the elements the
arguments refer to; arguments that are objects of the caller are part of it. -/
def constructFrom (args : List (Forwarded T)) (make : List T → T) : Code (Memory T) T := do
  let xs ← takeAll E args
  mayThrow E
  return make xs

/-- `my_vec()` -/
def construct (v : Nat) : Code (Memory T) Unit := setMembers v (some ⟨none, 0, 0, .array⟩)

/-- `~my_vec()` -/
def destruct (v : Nat) : Code (Memory T) Unit := do
  let f ← members v
  deleteArray f.form f.data
  setMembers v none

/-- `my_vec(my_vec&& o)` -/
def moveConstruct (v o : Nat) : Code (Memory T) Unit := do
  let g ← members o
  setMembers v (some g)
  setMembers o (some ⟨none, 0, 0, .array⟩)

/-- `operator=(my_vec&& o)` -/
def moveAssign (v o : Nat) : Code (Memory T) Unit :=
  if v = o then pure () else do
    let f ← members v
    deleteArray f.form f.data
    let g ← members o
    setMembers v (some g)
    setMembers o (some ⟨none, 0, 0, .array⟩)

/-- `cap_ ? cap_ * 2 : 1` -/
def MyVec.grown (f : MyVec) : Nat := if f.cap ≠ 0 then sizeT (f.cap * 2) else 1

/-- The capacity the vector asks for when an element is added; none if there is room. -/
def MyVec.wanted (f : MyVec) : Nat := if f.size = f.cap then f.grown else 0

/-- `if (size_ == cap_) reserve(cap_ ? cap_ * 2 : 1);` -/
def grow (reserve : Nat → Nat → Code (Memory T) Unit) (v : Nat) : Code (Memory T) Unit := do
  let f ← members v
  if f.size = f.cap then reserve v f.grown else pure ()

/-- What `push_back` and `emplace_back` do once `tmp` is there. -/
def append (reserve : Nat → Nat → Code (Memory T) Unit) (v : Nat) (tmp : T) :
    Code (Memory T) Unit := do
  grow reserve v
  let g ← members v
  mayThrowOnMove E
  storeSlot g.data g.size tmp
  setMembers v (some { g with size := sizeT (g.size + 1) })

/-- `push_back(const T& value)` -/
def pushBack (reserve : Nat → Nat → Code (Memory T) Unit) (v : Nat) (value : Arg T) :
    Code (Memory T) Unit := do
  let tmp ← value.copy E
  append E reserve v tmp

/-- `push_back(T&& value)` -/
def pushBackMove (reserve : Nat → Nat → Code (Memory T) Unit) (v : Nat) (value : Arg T) :
    Code (Memory T) Unit := do
  let tmp ← value.move E
  append E reserve v tmp

/-- `emplace_back(args...)` -/
def emplaceBack (reserve : Nat → Nat → Code (Memory T) Unit) (v : Nat)
    (args : List (Forwarded T)) (make : List T → T) : Code (Memory T) Unit := do
  let tmp ← constructFrom E args make
  append E reserve v tmp

/-- `v[index]` -/
def index (v i : Nat) : Code (Memory T) T := do
  let f ← members v
  loadSlot f.data i

/-- `v[index] = x` -/
def indexAssign (v i : Nat) (x : T) : Code (Memory T) Unit := do
  let f ← members v
  mayThrow E
  storeSlot f.data i x

/-- The members whose text differs between the two files. -/
structure Class (T : Type) where
  listConstruct : Nat → List T → Code (Memory T) Unit
  copyConstruct : Nat → Nat → Code (Memory T) Unit
  copyAssign : Nat → Nat → Code (Memory T) Unit
  reserve : Nat → Nat → Code (Memory T) Unit
  popBack : Nat → Code (Memory T) Unit

end Members

/-- One statement of a program that uses vectors. -/
inductive Op (T : Type) where
  | construct (v : Nat)
  | listConstruct (v : Nat) (il : List T)
  | copyConstruct (v o : Nat)
  | moveConstruct (v o : Nat)
  | copyAssign (v o : Nat)
  | moveAssign (v o : Nat)
  | destruct (v : Nat)
  | reserve (v n : Nat)
  | pushBack (v : Nat) (value : Arg T)
  | pushBackMove (v : Nat) (value : Arg T)
  | emplaceBack (v : Nat) (args : List (Forwarded T)) (make : List T → T)
  | popBack (v : Nat)
  | index (v i : Nat)
  | indexAssign (v i : Nat) (x : T)

variable {T : Type}

/-- The values the statement reads out are its result. -/
def Op.perform (E : Element T) (C : Class T) : Op T → Code (Memory T) (List T)
  | .construct v => do StdVector.construct v; return []
  | .listConstruct v il => do C.listConstruct v il; return []
  | .copyConstruct v o => do C.copyConstruct v o; return []
  | .moveConstruct v o => do StdVector.moveConstruct v o; return []
  | .copyAssign v o => do C.copyAssign v o; return []
  | .moveAssign v o => do StdVector.moveAssign v o; return []
  | .destruct v => do StdVector.destruct v; return []
  | .reserve v n => do C.reserve v n; return []
  | .pushBack v value => do StdVector.pushBack E C.reserve v value; return []
  | .pushBackMove v value => do StdVector.pushBackMove E C.reserve v value; return []
  | .emplaceBack v args make => do StdVector.emplaceBack E C.reserve v args make; return []
  | .popBack v => do C.popBack v; return []
  | .index v i => do return [← StdVector.index v i]
  | .indexAssign v i x => do StdVector.indexAssign E v i x; return []

/-- The index `i` is below the size of `v`. -/
def below (sizes : Nat → Option Nat) (v i : Nat) : Bool :=
  match sizes v with
  | none => false
  | some n => decide (i < n)

def Arg.valid (sizes : Nat → Option Nat) : Arg T → Bool
  | .temporary _ => true
  | .slot v i => below sizes v i

/-- What a caller owes: objects exist before use and not before construction,
`pop_back` needs an element and every index is below the size. -/
def Op.contract (sizes : Nat → Option Nat) : Op T → Bool
  | .construct v | .listConstruct v _ => (sizes v).isNone
  | .copyConstruct v o | .moveConstruct v o => (sizes v).isNone && (sizes o).isSome
  | .copyAssign v o | .moveAssign v o => (sizes v).isSome && (sizes o).isSome
  | .destruct v | .reserve v _ => (sizes v).isSome
  | .pushBack v a | .pushBackMove v a => (sizes v).isSome && a.valid sizes
  | .emplaceBack v args _ => (sizes v).isSome && args.all fun a => below sizes a.v a.i
  | .popBack v => below sizes v 0
  | .index v i | .indexAssign v i _ => below sizes v i

/-- The largest array the statement asks the heap for. -/
def Op.demand (m : Memory T) : Op T → Nat
  | .listConstruct _ il => il.length
  | .reserve _ n => n
  | .pushBack v _ | .pushBackMove v _ | .emplaceBack v _ _ =>
      match m.vecs v with
      | none => 0
      | some f => f.wanted
  | _ => 0

inductive Event (T : Type) where
  | value (x : T)
  | threw
  | fault
  deriving DecidableEq

/-- Programs over the vectors of one class. Nothing is known after a fault. -/
def machine (E : Element T) (C : Class T) : Machine (Memory T) (Op T) (Event T) where
  step m op :=
    if op.contract m.sizes then
      match op.perform E C m with
      | .done seen t => some (t, seen.map .value)
      | .threw t => some (t, [.threw])
      | .fault => some (m, [.fault])
    else none

end CppCodes.Source.StdVector
