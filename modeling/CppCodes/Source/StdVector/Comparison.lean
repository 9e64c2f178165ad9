import CppCodes.Source.StdVector.Objects
import Mathlib.Order.Defs.LinearOrder

/-!
# Comparing two vectors

Source: std_vector/vector_basic.cpp:158-177, std_vector/vec_1.cpp:104-117. The comparisons of the
elements may throw, and where they return they are those of a linear order, as
`std::strong_ordering` asks for. `std::equal` compares slot by slot.
-/

set_option autoImplicit false

namespace CppCodes.Source.StdVector

open Library Library.Code

variable {T : Type} (E : Element T)

/-- `for (i = first; i < first + count; ++i)`, left when `body` returns something. -/
def forReturning {α : Type} (body : Nat → Code (Memory T) (Option α)) (otherwise : α) :
    Nat → Nat → Code (Memory T) α
  | _, 0 => pure otherwise
  | i, count + 1 => do
      match ← body i with
      | some result => pure result
      | none => forReturning body otherwise (i + 1) count

/-- `data_[i]` and `o.data_[i]`, for a comparison of the two. -/
def loadBoth (p q : Option Nat) (i : Nat) : Code (Memory T) (T × T) := do
  let x ← loadSlot p i
  let y ← loadSlot q i
  mayThrow E
  return (x, y)

variable [LinearOrder T]

/-- The loop of `operator==`, and `std::equal`. -/
def equalSlots (p q : Option Nat) : Nat → Nat → Code (Memory T) Bool :=
  forReturning (fun i => do
    let (x, y) ← loadBoth E p q i
    return if x ≠ y then some false else none) true

namespace VectorBasic

/-- `operator==` -/
def equal (v o : Nat) : Code (Memory T) Bool := do
  let f ← members v
  let g ← members o
  if f.size ≠ g.size then pure false else equalSlots E f.data g.data 0 f.size

/-- `operator<=>` -/
def threeWay (v o : Nat) : Code (Memory T) Ordering := do
  let f ← members v
  let g ← members o
  if f.size ≠ g.size then pure (compare f.size g.size)
  else forReturning (fun i => do
    let (x, y) ← loadBoth E f.data g.data i
    let cmp := compare x y
    return if cmp ≠ .eq then some cmp else none) .eq 0 g.size

end VectorBasic

namespace Vec1

/-- `operator==` -/
def equal (v o : Nat) : Code (Memory T) Bool := do
  let f ← members v
  let g ← members o
  if f.size = g.size then equalSlots E f.data g.data 0 f.size else pure false

/-- `operator<=>`, with two comparisons of the elements that differ. -/
def threeWay (v o : Nat) : Code (Memory T) Ordering := do
  let f ← members v
  let g ← members o
  if f.size ≠ g.size then pure (compare f.size g.size)
  else forReturning (fun i => do
    let (x, y) ← loadBoth E f.data g.data i
    if x ≠ y then
      let (x, y) ← loadBoth E f.data g.data i
      return some (compare x y)
    else return none) .eq 0 f.size

end Vec1

end CppCodes.Source.StdVector
