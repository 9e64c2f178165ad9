import CppCodes.Library.Machine
import Mathlib.Data.Finmap

/-!
# The Brainfuck interpreter

Source: others/brain_fuck.cpp:10-105. A `char` of memory is an octet, counted modulo
256 by `++` and `--`. The jump tables keep positions as `int`: a position from
`2 ^ 31` on comes back as another `size_t`. `[]` on a table adds a missing key with
the value 0. An access outside `memory` has no defined behaviour; the model returns
`undefined` there. The trace holds what `.` puts out; the line printed last is
`Outcome.text`.
-/

set_option autoImplicit false

namespace CppCodes.Source.Others.BrainFuck

open CppCodes.Library

/-- `MEM_SIZE`. -/
def memSize : Nat := 30000

/-- `std::string_view`, whose size is a `size_t`. -/
structure Program where
  text : List Char
  fits : text.length < 2 ^ 64

def keywords : List Char := ['+', '-', '>', '<', '.', '[', ']']

def isWhiteSpace (ch : Char) : Bool := ch == ' ' || ch == '\t' || ch == '\n'

/-- `unordered_map<int, int>`. -/
abbrev Table := Finmap fun _ : Int32 => Int32

/-- A `size_t` stored in an `int`. -/
def intOfSize (i : Nat) : Int32 := Int32.ofNat i

/-- An `int` stored in a `size_t`. -/
def sizeOfInt (i : Int32) : Nat := (i.toInt % 2 ^ 64).toNat

/-- The loop of `prepareJumpTable` from position `i` on, with the stack, `forward`
and `backward`; `none` for `return false`. -/
def prepareLoop : Nat → List Char → List Int32 → Table → Table →
    Option (List Int32 × Table × Table)
  | _, [], s, forward, backward => some (s, forward, backward)
  | i, ch :: rest, s, forward, backward =>
      if ch = '[' then prepareLoop (i + 1) rest (intOfSize i :: s) forward backward
      else if ch = ']' then
        match s with
        | [] => none
        | top :: s =>
            prepareLoop (i + 1) rest s (forward.insert top (intOfSize i))
              (backward.insert (intOfSize i) top)
      else prepareLoop (i + 1) rest s forward backward

section PrepareLoop

variable {i : Nat} {rest : List Char} {s : List Int32} {forward backward : Table}

theorem prepareLoop_opening :
    prepareLoop i ('[' :: rest) s forward backward =
      prepareLoop (i + 1) rest (intOfSize i :: s) forward backward := by
  rw [prepareLoop.eq_def]
  rfl

theorem prepareLoop_closing {top : Int32} :
    prepareLoop i (']' :: rest) (top :: s) forward backward =
      prepareLoop (i + 1) rest s (forward.insert top (intOfSize i))
        (backward.insert (intOfSize i) top) := by
  rw [prepareLoop.eq_def]
  rfl

theorem prepareLoop_other {ch : Char} (opening : ch ≠ '[') (closing : ch ≠ ']') :
    prepareLoop i (ch :: rest) s forward backward =
      prepareLoop (i + 1) rest s forward backward := by
  rw [prepareLoop.eq_def]
  dsimp only
  rw [if_neg opening, if_neg closing]

end PrepareLoop

/-- `forward` and `backward`, or `none` for `return false`. -/
def prepareJumpTable (text : List Char) : Option (Table × Table) :=
  match prepareLoop 0 text [] ∅ ∅ with
  | some ([], forward, backward) => some (forward, backward)
  | _ => none

/-- `table[key]` and the table after it. -/
def subscript (table : Table) (key : Int32) : Int32 × Table :=
  match table.lookup key with
  | some value => (value, table)
  | none => (0, table.insert key 0)

inductive Outcome where
  | finished
  | unmatched
  | invalidProgram
  | underflow
  | overflow
  | undefined
  deriving DecidableEq

/-- What is printed before the return. -/
def Outcome.text : Outcome → String
  | .finished => "\n"
  | .unmatched => "ERROR: unmatched []\n"
  | .invalidProgram => "ERROR: invalid program\n"
  | .underflow => "ERROR: underflow\n"
  | .overflow => "ERROR: overflow\n"
  | .undefined => ""

inductive State where
  | running (ip : Nat) (dp : Int) (memory : List UInt8) (forward backward : Table)
  | returned (outcome : Outcome) (ip : Nat) (dp : Int) (memory : List UInt8)

/-- `memory[dp]`. -/
def load (memory : List UInt8) (dp : Int) : Option UInt8 :=
  if 0 ≤ dp then memory[dp.toNat]? else none

def store (memory : List UInt8) (dp : Int) (value : UInt8) : List UInt8 :=
  memory.set dp.toNat value

/-- `++ip` of a `size_t`. -/
def nextIp (ip : Nat) : Nat := (ip + 1) % 2 ^ 64

/-- One round of the `while` loop of `interpreter`. -/
def step (text : List Char) : State → Option (State × List UInt8)
  | .returned .. => none
  | .running ip dp memory forward backward =>
      match text[ip]? with
      | none => some (.returned .finished ip dp memory, [])
      | some ch =>
          if isWhiteSpace ch then some (.running (nextIp ip) dp memory forward backward, [])
          else if ch ∉ keywords then some (.returned .invalidProgram ip dp memory, [])
          else if ch = '<' then
            if dp - 1 < 0 then some (.returned .underflow ip (dp - 1) memory, [])
            else some (.running (nextIp ip) (dp - 1) memory forward backward, [])
          else if ch = '>' then
            if dp + 1 ≥ memSize then some (.returned .overflow ip (dp + 1) memory, [])
            else some (.running (nextIp ip) (dp + 1) memory forward backward, [])
          else
            -- the other cases of the switch read `memory[dp]`
            match load memory dp with
            | none => some (.returned .undefined ip dp memory, [])
            | some cell =>
                if ch = '+' then
                  some (.running (nextIp ip) dp (store memory dp (cell + 1)) forward backward, [])
                else if ch = '-' then
                  some (.running (nextIp ip) dp (store memory dp (cell - 1)) forward backward, [])
                else if ch = '.' then
                  some (.running (nextIp ip) dp memory forward backward, [cell])
                else if ch = '[' then
                  if cell = 0 then
                    let (target, forward) := subscript forward (intOfSize ip)
                    some (.running (nextIp (sizeOfInt target)) dp memory forward backward, [])
                  else some (.running (nextIp ip) dp memory forward backward, [])
                else
                  if cell ≠ 0 then
                    let (target, backward) := subscript backward (intOfSize ip)
                    some (.running (nextIp (sizeOfInt target)) dp memory forward backward, [])
                  else some (.running (nextIp ip) dp memory forward backward, [])

/-- The rounds of the loop, one after the other. -/
def machine (text : List Char) : Machine State Unit UInt8 where
  step s _ := step text s

def initialMemory : List UInt8 := List.replicate memSize 0

/-- `interpreter` before its loop. -/
def start (program : Program) : State :=
  match prepareJumpTable program.text with
  | none => .returned .unmatched 0 0 initialMemory
  | some (forward, backward) => .running 0 0 initialMemory forward backward

/-- The interpreter gets to a state after this output. -/
def Reaches (program : Program) (out : List UInt8) (s : State) : Prop :=
  ∃ actions, (machine program.text).Run (start program) actions s out

theorem load_eq {memory : List UInt8} {i : Nat} (h : i < memory.length) :
    load memory i = some memory[i] := by
  unfold load
  rw [if_pos (Int.natCast_nonneg i), Int.toNat_natCast, List.getElem?_eq_getElem h]

theorem sizeOfInt_intOfSize {i : Nat} (h : i < 2 ^ 31) : sizeOfInt (intOfSize i) = i := by
  unfold sizeOfInt intOfSize
  rw [Int32.toInt_ofNat_of_lt h]
  omega

theorem intOfSize_inj {i j : Nat} (hi : i < 2 ^ 31) (hj : j < 2 ^ 31)
    (h : intOfSize i = intOfSize j) : i = j := by
  rw [← sizeOfInt_intOfSize hi, h, sizeOfInt_intOfSize hj]

end CppCodes.Source.Others.BrainFuck
