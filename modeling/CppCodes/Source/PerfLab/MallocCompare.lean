import CppCodes.Library.AllocTrace
import CppCodes.Library.Fallible
import Mathlib.Algebra.Ring.Nat

/-!
# The allocator benchmark

Source: perf_lab/malloc_compare.cpp:135-254. `std::size_t` is a number below `2 ^ 64`. The
random draws and the answers of `malloc_fn` are parameters; an answer may depend on the
log, and so stand for what the other threads have done in the meantime. `std::abort` ends
the code as an exception does. An access outside a vector and a remainder by zero are
undefined, and a loop that the fuel is too little for counts as undefined as well.
-/

set_option autoImplicit false

namespace CppCodes.Source.PerfLab.MallocCompare

open Library Library.Code Library.AllocTrace

structure Options (F : Type) where
  allocsPerThread : Nat
  liveSlots : Nat
  smallMax : Nat
  largeSize : Nat
  largeRatio : F
  batch : Nat
  mode : String
  threads : Int
  warmup : Int
  reps : Int
  verbose : Bool

/-- What `parse_args` makes of the options that it has read. -/
def clamp {F : Type} [LT F] [DecidableLT F] [Zero F] [One F] (opt : Options F) :
    Option (Options F) :=
  let smallMax := if opt.smallMax < 16 then 16 else opt.smallMax
  let largeRatio := if opt.largeRatio < 0 then 0 else opt.largeRatio
  if opt.mode ≠ "glibc" ∧ opt.mode ≠ "jemalloc" ∧ opt.mode ≠ "tcmalloc" then
    none
  else
    some { opt with
      threads := if opt.threads ≤ 0 then 1 else opt.threads
      liveSlots := if opt.liveSlots = 0 then 1024 else opt.liveSlots
      smallMax := smallMax
      largeSize := if opt.largeSize < smallMax then smallMax else opt.largeSize
      largeRatio := if 1 < largeRatio then 1 else largeRatio
      batch := if opt.batch = 0 then 64 else opt.batch
      reps := if opt.reps ≤ 0 then 1 else opt.reps
      warmup := if opt.warmup < 0 then 0 else opt.warmup }

def sizeT (n : Nat) : Nat := n % 2 ^ 64

/-- The draws of one thread's generator. -/
structure Draws (F : Type) where
  coin : Nat → F
  small : Nat → Nat
  pick : Nat → Nat

structure ThreadSeq where
  allocSizes : List Nat
  freePicks : List Nat

def allocSize {F : Type} [LT F] [DecidableLT F] (opt : Options F) (draws : Draws F) (i : Nat) :
    Nat :=
  if draws.coin i < opt.largeRatio then opt.largeSize else draws.small i

def precompute {F : Type} [LT F] [DecidableLT F] (opt : Options F) (draws : Draws F) :
    ThreadSeq where
  allocSizes := (List.range opt.allocsPerThread).map (allocSize opt draws)
  freePicks :=
    (List.range (sizeT (opt.allocsPerThread + opt.liveSlots + opt.batch))).map draws.pick

/-- The variables of one thread, and the log of what it does with its blocks. -/
structure Worker (A : Type) where
  log : List (Event A)
  slots : List (Option A)
  live : List A
  freePickIdx : Nat

def Worker.start {F A : Type} (opt : Options F) : Worker A :=
  ⟨[], List.replicate opt.liveSlots none, [], 0⟩

section Threads

variable {F A : Type}

def record (e : Event A) : Code (Worker A) Unit :=
  modify fun w => { w with log := w.log ++ [e] }

/-- `a % b` -/
def remainder (a b : Nat) : Code (Worker A) Nat := if b = 0 then fail else pure (a % b)

/-! ## `touch` -/

def stride : Nat := 4096

def touchLimit (sz : Nat) : Nat :=
  if sz > stride then sizeT (stride * (sizeT (sz + stride - 1) / stride)) else sz

def touchFrom (p : A) (sz limit : Nat) : Nat → Nat → Code (Worker A) Unit
  | 0, _ => fail
  | fuel + 1, off =>
      if off < limit then do
        record (.written p off (min 64 (sizeT (sz + 2 ^ 64 - off))))
        touchFrom p sz limit fuel (sizeT (off + stride))
      else
        pure ()

def touch (fuel : Nat) (p : Option A) (sz : Nat) : Code (Worker A) Unit :=
  match p with
  | none => pure ()
  | some p => if sz = 0 then pure () else touchFrom p sz (touchLimit sz) fuel 0

/-! ## The threads of `run_once` -/

variable (fuel : Nat) (mallocFn : List (Event A) → Nat → Option A) (opt : Options F)
  (seq : ThreadSeq)

/-- `malloc_fn(sz)` and the test of its answer. -/
def allocate (sz : Nat) : Code (Worker A) A := do
  let answer ← Code.read fun w => mallocFn w.log sz
  match answer with
  | none => raise
  | some p => do
      record (.obtained p sz)
      pure p

def freeFn (p : A) : Code (Worker A) Unit := record (.freed p)

def pushLive (p : A) : Code (Worker A) Unit := modify fun w => { w with live := w.live ++ [p] }

/-- `slots[i] = p` -/
def setSlot (i : Nat) (p : A) : Code (Worker A) Unit := do
  let slots ← Code.read Worker.slots
  if i < slots.length then
    modify fun w => { w with slots := w.slots.set i (some p) }
  else
    fail

/-- An iteration of the initial fill. -/
def fillOne (allocIdx : Nat) : Code (Worker A) Unit := do
  let sz ← require seq.allocSizes[allocIdx]?
  let p ← allocate mallocFn sz
  touch fuel (some p) sz
  let slot ← remainder allocIdx opt.liveSlots
  setSlot slot p
  pushLive p

def batchOne (allocIdx : Nat) : Code (Worker A) Unit := do
  let sz ← require seq.allocSizes[allocIdx]?
  let p ← allocate mallocFn sz
  touch fuel (some p) sz
  pushLive p

/-- `free_picks[free_pick_idx++ % free_picks.size()]` -/
def nextPick : Code (Worker A) Nat := do
  let i ← Code.read Worker.freePickIdx
  modify fun w => { w with freePickIdx := sizeT (i + 1) }
  let place ← remainder i seq.freePicks.length
  require seq.freePicks[place]?

/-- Free a picked entry and put the last one in its place. -/
def freePicked : Code (Worker A) Unit := do
  let pick ← nextPick seq
  let live ← Code.read Worker.live
  let idx ← remainder pick live.length
  let p ← require live[idx]?
  freeFn p
  let back ← require live.getLast?
  modify fun w => { w with live := (live.set idx back).dropLast }

def freeBatch : Nat → Code (Worker A) Unit
  | 0 => pure ()
  | frees + 1 => do
      let live ← Code.read Worker.live
      if live = [] then
        pure ()
      else do
        freePicked seq
        freeBatch frees

def churn : Nat → Nat → Code (Worker A) Unit
  | 0, _ => fail
  | more + 1, allocIdx =>
      if allocIdx < opt.allocsPerThread then do
        let batch := min opt.batch (opt.allocsPerThread - allocIdx)
        forRange (batchOne fuel mallocFn seq) allocIdx batch
        let live ← Code.read Worker.live
        freeBatch seq (min batch live.length)
        churn more (allocIdx + batch)
      else
        pure ()

def freeAll : List A → Code (Worker A) Unit
  | [] => pure ()
  | p :: rest => do
      freeFn p
      freeAll rest

/-- What a thread of `run_once` does. -/
def worker : Code (Worker A) Unit := do
  let warm := min opt.liveSlots opt.allocsPerThread
  forRange (fillOne fuel mallocFn opt seq) 0 warm
  churn fuel mallocFn opt seq fuel warm
  let live ← Code.read Worker.live
  freeAll live

variable [LT F] [DecidableLT F]

/-- The thread from its sequences on, with its own draws and answers. -/
def runThread (draws : Draws F) : Outcome (Worker A) Unit :=
  worker fuel mallocFn opt (precompute opt draws) (Worker.start opt)

/-- The threads of `run_once` have come to their ends, in some order of their steps. -/
def RunOnce (answers : Nat → List (Event A) → Nat → Option A) (draws : Nat → Draws F)
    (run : List (Nat × Event A)) : Prop :=
  (∀ entry ∈ run, entry.1 < opt.threads.toNat) ∧
    ∀ t, t < opt.threads.toNat →
      ∃ w, runThread fuel (answers t) opt (draws t) = .done () w ∧ own t run = w.log

end Threads

end CppCodes.Source.PerfLab.MallocCompare
