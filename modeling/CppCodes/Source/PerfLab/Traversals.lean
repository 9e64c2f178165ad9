import Mathlib.Data.List.Basic
import Mathlib.Algebra.Ring.Nat

/-!
# The traversals of the matrix and of the pages

Source: perf_lab/perf_lab.cpp:125-148 (`row_major`, `col_major`) and 473-496 (the two loops of
`run_fault`). Indices are those of `std::size_t`; an access outside of a vector is `none`.
-/

set_option autoImplicit false

namespace CppCodes.Source.PerfLab.Traversals

/-- `sum += a[k]` -/
def add (a : List UInt32) (sum : UInt64) (k : Nat) : Option UInt64 :=
  (a[k]?).map fun x => sum + x.toUInt64

def rowMajor (a : List UInt32) (N iters : Nat) : Option UInt64 :=
  (List.range iters).foldlM (fun sum _ =>
    (List.range N).foldlM (fun sum i =>
      let base := i * N % 2 ^ 64
      (List.range N).foldlM (fun sum j => add a sum ((base + j) % 2 ^ 64)) sum) sum) 0

def colMajor (a : List UInt32) (N iters : Nat) : Option UInt64 :=
  (List.range iters).foldlM (fun sum _ =>
    (List.range N).foldlM (fun sum j =>
      (List.range N).foldlM (fun sum i => add a sum ((i * N + j) % 2 ^ 64)) sum) sum) 0

/-- The memory and the checksum of `run_fault`. -/
structure Touched where
  mem : List UInt8
  acc : UInt64 := 0
  deriving DecidableEq

def page : Nat := 4096

/-- `mem[off] += 1; acc += mem[off];` -/
def touch (s : Touched) (p : Nat) : Option Touched :=
  let off := p * page % 2 ^ 64
  (s.mem[off]?).map fun x => { mem := s.mem.set off (x + 1), acc := s.acc + (x + 1).toUInt64 }

/-- The loop over the pages in their order. -/
def faultGood (mem : List UInt8) (pages iters : Nat) : Option Touched :=
  (List.range iters).foldlM (fun s _ => (List.range pages).foldlM touch s) { mem }

/-- The loop over the shuffled indices. -/
def faultBad (mem : List UInt8) (idx : List Nat) (pages iters : Nat) : Option Touched :=
  (List.range iters).foldlM (fun s _ =>
    (List.range pages).foldlM (fun s k => (idx[k]?).bind fun p => touch s p) s) { mem }

end CppCodes.Source.PerfLab.Traversals
