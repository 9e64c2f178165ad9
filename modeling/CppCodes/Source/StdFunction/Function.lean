import CppCodes.Library.Fallible
import CppCodes.Library.Machine
import CppCodes.Library.OwningPointers

/-!
# The class template `Function`

Source: std_function/func.cpp:19-65. A functor of any type is a value of `F`: calling it
gives a result (what it returns or throws) and leaves it with a new state, copying it gives
an equal one. A callable on the heap is a block with one functor in it. A virtual call on
a pointer that is null or whose callable has been deleted is undefined, as is a second
`delete`; `delete` of a null pointer does nothing. What the members print is left out.
-/

set_option autoImplicit false

namespace CppCodes.Source.StdFunction

open Library Library.Code

variable {F A R : Type}

/-- The functors, and which of the `new callable_derived` throw, for want of memory or
because the functor's copy does. -/
structure Client (F A R : Type) where
  invoke : F → A → R × F
  throwsAt : Nat → Bool

/-- `objects` has the member `base` of every live object, by name; `deleted` is read by
nothing. -/
structure Memory (F : Type) where
  heap : BlockHeap F := .empty
  objects : Nat → Option (Option Nat) := fun _ => none
  deleted : List Nat := []
  created : Nat := 0

section Primitives

def base (o : Nat) : Code (Memory F) (Option Nat) := do
  let b ← Code.read fun m => m.objects o
  require b

def setObject (o : Nat) (b : Option (Option Nat)) : Code (Memory F) Unit :=
  modify fun m => { m with objects := Function.update m.objects o b }

/-- The functor in `*p`. -/
def functorAt (p : Nat) : Code (Memory F) F := do
  let f ← Code.read fun m => m.heap.load p 0
  require f

def setFunctorAt (p : Nat) (f : F) : Code (Memory F) Unit := do
  let stored ← Code.read fun m => m.heap.store p 0 f
  let h ← require stored
  modify fun m => { m with heap := h }

/-- `delete base` -/
def deleteCallable : Option Nat → Code (Memory F) Unit
  | none => pure ()
  | some p => do
      let freed ← Code.read fun m => m.heap.free p
      let h ← require freed
      modify fun m => { m with heap := h, deleted := p :: m.deleted }

end Primitives

variable (C : Client F A R)

/-- `new callable_derived<T>(functor)`: what was allocated is released when the copy of the
functor throws. -/
def newCallable (functor : F) : Code (Memory F) Nat := fun m =>
  if C.throwsAt m.created then .threw { m with created := m.created + 1 }
  else .done m.heap.next { m with heap := m.heap.alloc [functor], created := m.created + 1 }

/-- `callable_derived::copy` -/
def copy (p : Nat) : Code (Memory F) Nat := do
  let f ← functorAt p
  newCallable C f

/-! ## The members -/

def construct (o : Nat) : Code (Memory F) Unit := setObject o (some none)

def constructFrom (o : Nat) (functor : F) : Code (Memory F) Unit := do
  let p ← newCallable C functor
  setObject o (some (some p))

def copyConstruct (o f : Nat) : Code (Memory F) Unit := do
  let source ← base f
  let p ← require source
  let q ← copy C p
  setObject o (some (some q))

def assign (o f : Nat) : Code (Memory F) Unit := do
  let old ← base o
  deleteCallable old
  let source ← base f
  let p ← require source
  let q ← copy C p
  setObject o (some (some q))

/-- `operator()`, through `callable_derived::operator()` -/
def call (o : Nat) (arg0 : A) : Code (Memory F) R := do
  let b ← base o
  let p ← require b
  let f ← functorAt p
  setFunctorAt p (C.invoke f arg0).2
  return (C.invoke f arg0).1

def destroy (o : Nat) : Code (Memory F) Unit := do
  let b ← base o
  deleteCallable b
  setObject o none

/-! ## Programs over any number of objects -/

/-- `f` is the object that is copied. -/
inductive Op (F A : Type) where
  | construct (o : Nat)
  | constructFrom (o : Nat) (functor : F)
  | copyConstruct (o f : Nat)
  | assign (o f : Nat)
  | call (o : Nat) (arg0 : A)
  | destroy (o : Nat)
  deriving DecidableEq

inductive Event (F A R : Type) where
  | done (op : Op F A) (result : Option R)
  | threw (op : Op F A)
  | fault
  deriving DecidableEq

/-- Objects are constructed under new names and used while they live, and only objects
with a callable are called. -/
def enabled (m : Memory F) : Op F A → Bool
  | .construct o => (m.objects o).isNone
  | .constructFrom o _ => (m.objects o).isNone
  | .copyConstruct o f => (m.objects o).isNone && (m.objects f).isSome
  | .assign o f => (m.objects o).isSome && (m.objects f).isSome
  | .call o _ => (m.objects o).join.isSome
  | .destroy o => (m.objects o).isSome

def perform : Op F A → Code (Memory F) (Option R)
  | .construct o => do construct o; return none
  | .constructFrom o functor => do constructFrom C o functor; return none
  | .copyConstruct o f => do copyConstruct C o f; return none
  | .assign o f => do assign C o f; return none
  | .call o arg0 => do return some (← call C o arg0)
  | .destroy o => do destroy o; return none

def machine : Machine (Memory F) (Op F A) (Event F A R) where
  step m op :=
    if enabled m op then
      match perform C op m with
      | .done r t => some (t, [.done op r])
      | .threw t => some (t, [.threw op])
      | .fault => some (m, [.fault])
    else none

end CppCodes.Source.StdFunction
