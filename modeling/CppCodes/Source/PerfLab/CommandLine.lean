import CppCodes.Source.Atoi.Reading

/-!
# The command line of perf_lab

Source: perf_lab/perf_lab.cpp:41-92. An argument is its octets. `std::stoull` and `std::stoi` read
what `strtoull` and `strtol` do: white space, a sign, digits, and nothing of what follows. They
throw where there is no digit and where the number has no place in the type; a minus in front of
an unsigned number negates it modulo `2 ^ 64`.
-/

set_option autoImplicit false

namespace CppCodes.Source.PerfLab.CommandLine

open Library
open Atoi (Bytes reading signFactor)

def octets (text : String) : Bytes := text.toList.map Char.toUInt8

structure Args where
  mode : Bytes := octets "rowcol"
  variant : Bytes := octets "both"
  size : UInt64 := 8192
  iters : UInt64 := 50
  threads : Int32 := 2
  chunk : UInt64 := 64
  deriving DecidableEq

/-- The ways in which `parse_args` does not return: `std::exit` with what has been written to
`std::cerr`, or an exception. -/
inductive Ended where
  | exit (code : Int32) (err : Bytes)
  | invalidArgument
  | outOfRange
  deriving DecidableEq

def usage (prog : Bytes) : Bytes :=
  octets "Usage: " ++ prog ++ octets " [--mode=...] [--variant=bad|good|both]\n" ++
    octets "                 [--size=N] [--iters=N] [--threads=N] [--chunk=BYTES]\n" ++
    octets "Modes: rowcol, ptr, branch, false_share, lock, malloc, syscall, fault, all\n"

def stoull (v : Bytes) : Except Ended UInt64 :=
  let number := reading v
  if number.digits = [] then .error .invalidArgument
  else if decimal number.digits < 2 ^ 64 then
    let n := UInt64.ofNat (decimal number.digits)
    .ok (if number.sign = ['-'.toUInt8] then -n else n)
  else .error .outOfRange

def stoi (v : Bytes) : Except Ended Int32 :=
  let number := reading v
  let n := signFactor number.sign * decimal number.digits
  if number.digits = [] then .error .invalidArgument
  else if -2 ^ 31 ≤ n ∧ n < 2 ^ 31 then .ok (Int32.ofInt n)
  else .error .outOfRange

/-- The lambda `get`: what stands behind `key` and a `=`. -/
def get (s key : Bytes) : Option Bytes :=
  if key <+: s ∧ s.length > key.length ∧ s[key.length]? = some '='.toUInt8 then
    some (s.drop (key.length + 1))
  else none

/-- One argument. -/
def parseArg (prog : Bytes) (a : Args) (s : Bytes) : Except Ended Args :=
  if s = octets "-h" ∨ s = octets "--help" then .error (.exit 0 (usage prog))
  else match get s (octets "--mode") with
  | some v => .ok { a with mode := v }
  | none => match get s (octets "--variant") with
    | some v => .ok { a with variant := v }
    | none => match get s (octets "--size") with
      | some v => (stoull v).map fun n => { a with size := n }
      | none => match get s (octets "--iters") with
        | some v => (stoull v).map fun n => { a with iters := n }
        | none => match get s (octets "--threads") with
          | some v => (stoi v).map fun n => { a with threads := n }
          | none => match get s (octets "--chunk") with
            | some v => (stoull v).map fun n => { a with chunk := n }
            | none =>
                .error (.exit 1 (octets "Unknown arg: " ++ s ++ octets "\n" ++ usage prog))

/-- `argv` without the name of the program. -/
def parseArgs (prog : Bytes) (argv : List Bytes) : Except Ended Args := do
  let a ← argv.foldlM (parseArg prog) {}
  return if a.threads ≤ 0 then { a with threads := 1 } else a

end CppCodes.Source.PerfLab.CommandLine
