import CppCodes.Library.Fallible
import CppCodes.Library.LineInput
import CppCodes.Source.Others.Iterator

/-!
# The numbers of a file

Source: others/iterator.cpp:75-123, and the loop of `main` at 150-155. The stream is what is
left of its text. An `int*` is null or a position in `m_data`; reading or moving it outside of
the vector is a fault.
-/

set_option autoImplicit false

namespace CppCodes.Source.Others.NumberFile

open Library Library.Code Library.LineInput
open Others.Iterator (Bytes convert)

def newline : UInt8 := '\n'.toUInt8

/-- `m_data` -/
structure Solution where
  data : List Int32
  deriving DecidableEq

/-- The loop of the constructor; each line takes an octet off the stream at least. -/
def readLines (A : IntArith) : Nat → Bytes → List Int32 → Option (List Int32)
  | 0, _, _ => none
  | fuel + 1, stream, data =>
      match getline newline stream with
      | none => some data
      | some (str, stream) => do
          match ← convert A str with
          | some ret => readLines A fuel stream (data ++ [ret])
          | none => readLines A fuel stream data

/-- `Solution(std::istream &stream)` -/
def Solution.read (A : IntArith) (stream : Bytes) : Option Solution :=
  (readLines A (stream.length + 1) stream []).map Solution.mk

/-- `m_ptr` -/
abbrev Iterator := Option Nat

def Solution.beginIt (s : Solution) : Iterator := if s.data.length = 0 then none else some 0

def Solution.endIt (s : Solution) : Iterator :=
  if s.data.length = 0 then none else some (s.data.length - 1 + 1)

/-- `*it` -/
def Solution.deref (s : Solution) : Iterator → Code Bytes Int32
  | none => raise
  | some i => require s.data[i]?

/-- `++it` -/
def Solution.advance (s : Solution) : Iterator → Code Bytes Iterator
  | none => fail
  | some i => if i < s.data.length then pure (some (i + 1)) else fail

/-- `while (it != s.end()) { std::cout << *it << std::endl; ++it; }`; the state is what has been
printed. -/
def Solution.printFrom (s : Solution) : Nat → Iterator → Code Bytes Unit
  | 0, _ => fail
  | fuel + 1, it =>
      if it ≠ s.endIt then do
        let value ← s.deref it
        modify fun out => out ++ signedNumeral value.toInt ++ [newline]
        let it ← s.advance it
        s.printFrom fuel it
      else pure ()

def Solution.print (s : Solution) : Code Bytes Unit := s.printFrom (s.data.length + 1) s.beginIt

end CppCodes.Source.Others.NumberFile
