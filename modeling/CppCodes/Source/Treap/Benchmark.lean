import CppCodes.Source.Treap.TreapMap
import Mathlib.Data.List.AList

/-!
# The benchmark of the treap

Source: treap/benchmark.cpp:23-95 and 105-148. A function that `main` passes to the templates is a
member of `Functions`. The order of `keys` and the indices that `dist` draws are parameters, and the
times are left out. A `std::map` is its entries, of which no function depends on the order.
-/

set_option autoImplicit false

namespace CppCodes.Source.Treap.Benchmark

/-- A map type with the functions of `main` for it. -/
structure Functions (Map : Type) where
  empty : Map
  inserter : Map → Int32 → Int32 → Map
  finder : Map → Int32 → UInt64
  eraser : Map → Int32 → Map × Bool
  size : Map → UInt64

/-- `static_cast<std::uint64_t>` of what was found, or `0ULL` -/
def found : Option Int32 → UInt64
  | some value => value.toInt64.toUInt64
  | none => 0

def less (a b : Int32) : Bool := decide (a < b)

/-- `TreapMap<int, int>` -/
def treap (draw : Nat → UInt32) : Functions (TreapMap Int32 Int32) where
  empty := {}
  inserter map key value := (map.insertOrAssign less draw key value).1
  finder map key := found (map.find less key)
  eraser map key := map.erase less key
  size map := .ofNat map.size

/-- `std::map<int, int>` -/
def orderedMap : Functions (AList fun _ : Int32 => Int32) where
  empty := ∅
  inserter map key value := if key ∈ map then map else map.insert key value
  finder map key := found (map.lookup key)
  eraser map key := (map.erase key, decide (key ∈ map))
  size map := .ofNat map.entries.length

variable {Map : Type} (F : Functions Map)

/-- The loop of `bench_insert` and `preload` from the index `i` on. -/
def insertFrom (i : Nat) (map : Map) : List Int32 → Map
  | [] => map
  | key :: keys => insertFrom (i + 1) (F.inserter map key (.ofNat i)) keys

def benchFind (map : Map) (queries : List Int32) : UInt64 :=
  queries.foldl (fun checksum key => checksum + F.finder map key) 0

/-- The loop of `bench_erase`, with `removed`. -/
def eraseFrom (map : Map) (removed : UInt64) : List Int32 → UInt64
  | [] => removed
  | key :: keys =>
      let (map, gone) := F.eraser map key
      eraseFrom map (removed + if gone then 1 else 0) keys

/-- The checksums that are printed for a map type. -/
structure Checksums where
  insert : UInt64
  find : UInt64
  erase : UInt64
  deriving DecidableEq

/-- `bench_insert` and `bench_find` on one map, and `bench_erase` on a second one. -/
def checksums (keys queries : List Int32) : Checksums where
  insert := F.size (insertFrom F 0 F.empty keys)
  find := benchFind F (insertFrom F 0 F.empty keys) queries
  erase := eraseFrom F (insertFrom F 0 F.empty keys) 0 keys

/-- The keys before they are shuffled. -/
def iota (count : Nat) : List Int32 := (List.range count).map .ofNat

/-- `dist i` is drawn in the turn `i`, if any is. -/
def makeQueries (keys : List Int32) (totalQueries : Nat) (dist : Nat → Fin keys.length) : List Int32 :=
  (List.range totalQueries).map fun i =>
    if i % 2 = 0 then keys.get (dist i) else .ofNat (keys.length + i)

end CppCodes.Source.Treap.Benchmark
