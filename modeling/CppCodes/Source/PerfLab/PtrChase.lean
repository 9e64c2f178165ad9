import Mathlib.Algebra.Ring.Nat
import Mathlib.Data.List.Basic

/-!
# Pointer chasing and the sequential walk

Source: perf_lab/perf_lab.cpp:170-207. `perm` is what `std::shuffle` has made of the
indices. An access outside a vector is `none`.
-/

set_option autoImplicit false

namespace CppCodes.Source.PerfLab

/-- `std::vector<std::uint32_t>` -/
abbrev Vector32 := List UInt32

/-- `v[i] = x` -/
def assign (v : Vector32) (i : UInt32) (x : UInt32) : Option Vector32 :=
  if i.toNat < v.length then some (v.set i.toNat x) else none

/-- What `std::iota` fills in below `n = 2 ^ 31`; from there on `0` counts as an `int` that
overflows. The permutation itself is taken as given. -/
def iota (n : Nat) : Vector32 := (List.range n).map UInt32.ofNat

/-- `next[perm[i]] = perm[i + 1]`, for so many `i` from the given one on. -/
def link (perm : Vector32) : Nat → Nat → Vector32 → Option Vector32
  | _, 0, next => some next
  | i, count + 1, next => do
      let a ← perm[i]?
      let b ← perm[i + 1]?
      let next ← assign next a b
      link perm (i + 1) count next

/-- `next`, as `run_ptr` builds it. -/
def buildNext (n : Nat) (perm : Vector32) : Option Vector32 := do
  let next ← link perm 0 (n - 1) (List.replicate n 0)
  let last ← perm[n - 1]?
  let first ← perm[0]?
  assign next last first

/-- The loop of `ptr_chase`. -/
def chase (next : Vector32) : Nat → UInt32 → UInt64 → Option UInt64
  | 0, _, acc => some acc
  | steps + 1, idx, acc => do
      let idx ← next[idx.toNat]?
      chase next steps idx (acc + idx.toUInt64)

def ptrChase (next : Vector32) (steps : Nat) : Option UInt64 := chase next steps 0 0

/-- One pass of `seq_walk` from the index `i` on. -/
def walkOnce (next : Vector32) : Nat → Nat → UInt64 → Option UInt64
  | _, 0, acc => some acc
  | i, count + 1, acc => do
      let x ← next[i]?
      walkOnce next (i + 1) count (acc + x.toUInt64)

def walk (next : Vector32) (n : Nat) : Nat → UInt64 → Option UInt64
  | 0, acc => some acc
  | iters + 1, acc => do
      let acc ← walkOnce next 0 n acc
      walk next n iters acc

def seqWalk (next : Vector32) (n iters : Nat) : Option UInt64 := walk next n iters 0

/-- `n * a.iters` in `std::size_t`. -/
def chaseSteps (n iters : Nat) : Nat := n * iters % 2 ^ 64

def randomChase (next : Vector32) (n iters : Nat) : Option UInt64 :=
  ptrChase next (chaseSteps n iters)

end CppCodes.Source.PerfLab
