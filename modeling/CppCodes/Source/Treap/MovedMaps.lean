import CppCodes.Source.Treap.LinkedTreap
import Mathlib.Logic.Function.Basic

/-!
# Several treaps in one memory

Source: treap/treap.hpp:16-41, the constructors, the destructor and the assignment, over the
members of `LinkedTreap`. The objects share the heap. Each has a generator of its own, and
those that are seeded are numbered; a comparator is the same in every object.
-/

set_option autoImplicit false

namespace CppCodes.Source.Treap.Linked

open Library Library.Code

/-- `seeded g n` is what the generator `g` draws for the `n`-th time. -/
structure Instance (K V : Type) where
  comp : K → K → Bool
  seeded : Nat → Nat → UInt32
  throwsAt : Call → Nat → Bool
  torn : V → V → V

variable {K V : Type}

def Instance.client (I : Instance K V) (rng : Nat) : Client K V where
  comp := I.comp
  draw := I.seeded rng
  throwsAt := I.throwsAt
  torn := I.torn

/-- The members of a `TreapMap`. -/
structure Object where
  root : Option Nat := none
  size : Nat := 0
  rng : Nat
  drawn : Nat := 0
  deriving DecidableEq

/-- `objects` are those in their lifetime, `generators` how many have been seeded. -/
structure World (K V : Type) where
  heap : BlockHeap (Cell K V) := .empty
  objects : Nat → Option Object := fun _ => none
  generators : Nat := 0
  calls : Nat := 0

/-- What a member function of the object sees. -/
def World.memory (w : World K V) (o : Object) : Memory K V :=
  { heap := w.heap, root := o.root, size := o.size, drawn := o.drawn, calls := w.calls }

/-- What it leaves. -/
def World.afterCall (w : World K V) (i : Nat) (o : Object) (m : Memory K V) : World K V :=
  { w with
    heap := m.heap
    calls := m.calls
    objects := Function.update w.objects i
      (some { o with root := m.root, size := m.size, drawn := m.drawn }) }

inductive Action (K V : Type) where
  /-- `TreapMap()` -/
  | construct (i : Nat)
  /-- `TreapMap(TreapMap&& other)` -/
  | moveConstruct (i other : Nat)
  /-- `operator=(TreapMap&& other)` -/
  | moveAssign (i other : Nat)
  | perform (i : Nat) (op : Op K V)
  /-- `~TreapMap()` -/
  | destruct (i : Nat)

/-- `root_` and `size_` of `other` go to the object `i`, with a new generator, and `other` is
left empty. -/
def World.take (w : World K V) (i other : Nat) (from' : Object) : World K V :=
  { w with
    generators := w.generators + 1
    objects := Function.update
      (Function.update w.objects other (some { from' with root := none, size := 0 })) i
      (some { root := from'.root, size := from'.size, rng := w.generators }) }

/-- Actions on objects outside of their lifetime are no steps. -/
def World.step (I : Instance K V) (w : World K V) :
    Action K V → Option (World K V × List (Event V))
  | .construct i =>
      match w.objects i with
      | some _ => none
      | none =>
          some ({ w with generators := w.generators + 1
                         objects := Function.update w.objects i (some { rng := w.generators }) }, [])
  | .moveConstruct i other =>
      match w.objects i, w.objects other with
      | none, some o => some (w.take i other o, [])
      | _, _ => none
  | .moveAssign i other =>
      match w.objects i, w.objects other with
      | some o, some o' =>
          if i = other then some (w, [])
          else
            match clear (w.memory o) with
            | .done _ m => some ((w.afterCall i o m).take i other o', [])
            | .threw m => some (w.afterCall i o m, [.threw])
            | .fault => some (w, [.fault])
      | _, _ => none
  | .perform i op =>
      match w.objects i with
      | none => none
      | some o =>
          match perform (I.client o.rng) op (w.memory o) with
          | .done r m => some (w.afterCall i o m, [.result r])
          | .threw m => some (w.afterCall i o m, [.threw])
          | .fault => some (w, [.fault])
  | .destruct i =>
      match w.objects i with
      | none => none
      | some o =>
          match clear (w.memory o) with
          | .done _ m =>
              some ({ w with heap := m.heap, calls := m.calls
                             objects := Function.update w.objects i none }, [])
          | .threw m => some (w.afterCall i o m, [.threw])
          | .fault => some (w, [.fault])

def World.machine (I : Instance K V) : Machine (World K V) (Action K V) (Event V) where
  step := World.step I

end CppCodes.Source.Treap.Linked
