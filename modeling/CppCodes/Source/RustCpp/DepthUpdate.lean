import CppCodes.Library.SortedMap
import Mathlib.Data.Nat.Notation

/-!
# Applying a depth update

Source: rust_cpp/md.cpp:26-29, 45-51, 104-122 and rust_cpp/src/main.rs:12-48,
255-282; md2.cpp, md3.cpp and md5.cpp repeat the same steps and differ only in how a
number is read. `F` stands for the numbers a `double` can hold. What the JSON libraries
make of a message is the `DepthUpdate` of md5.cpp:33-39, which is also `WsUpdate` of
main.rs. A call leaves its state even when it fails, so the state is part of every
result.
-/

set_option autoImplicit false

namespace CppCodes.Source.RustCpp

open CppCodes.Library

/-- Price and size, as the message has them. -/
abbrev RawLevel := String × String

structure DepthUpdate where
  U : Int64
  u : Int64
  pu : Option Int64 := none
  b : List RawLevel := []
  a : List RawLevel := []
  deriving DecidableEq

/-- `std::greater` and `.iter().rev()` only turn the iteration over the bids round. -/
structure OrderBook (F : Type) [LinearOrder F] where
  bids : SortedMap F F := .empty
  asks : SortedMap F F := .empty
  deriving DecidableEq

inductive Failure where
  /-- "sequence gap; need resnapshot" -/
  | sequenceGap
  /-- A number that `std::stod` refuses. -/
  | badNumber
  /-- `last_update_id + 1` does not fit: undefined in C++, a panic in Rust. -/
  | overflow
  deriving DecidableEq

variable {F : Type} [LinearOrder F]

/-- The book and the id of the last update in it. -/
structure Feed (F : Type) [LinearOrder F] where
  lastUpdateId : Int64 := 0
  book : OrderBook F := {}
  deriving DecidableEq

/-- `last_update_id + 1`. -/
def nextId (last : Int64) : Option Int64 :=
  if last = Int64.maxValue then none else some (last + 1)

variable [Zero F]

def applyDeltas (side : SortedMap F F) (deltas : List (F × F)) : SortedMap F F :=
  deltas.foldl (fun side d => if d.2 = 0 then side.erase d.1 else side.insert d.1 d.2) side

/-- The update path, with the reading of one side's levels as a parameter. Both
sides are read before the book is touched. -/
def applyUpdate (readSide : List RawLevel → Except Failure (List (F × F))) (s : Feed F)
    (upd : DepthUpdate) : Feed F × Except Failure Unit :=
  let pu := upd.pu.getD 0
  if upd.u ≤ s.lastUpdateId then (s, .ok ())
  else
    match nextId s.lastUpdateId with
    | none => (s, .error .overflow)
    | some next =>
        let bridgedWindow := upd.U ≤ next ∧ next ≤ upd.u
        let bridgedPu := pu = s.lastUpdateId ∧ pu ≠ 0
        if ¬ (bridgedWindow ∨ bridgedPu) then (s, .error .sequenceGap)
        else
          match readSide upd.b with
          | .error e => (s, .error e)
          | .ok bidD =>
              match readSide upd.a with
              | .error e => (s, .error e)
              | .ok askD =>
                  ({ lastUpdateId := upd.u
                     book :=
                      { bids := applyDeltas s.book.bids bidD
                        asks := applyDeltas s.book.asks askD } }, .ok ())

/-- The update names the last id as its predecessor. -/
def Linked (last : Int64) (upd : DepthUpdate) : Prop :=
  upd.pu.getD 0 = last ∧ upd.pu.getD 0 ≠ 0

instance (last : Int64) (upd : DepthUpdate) : Decidable (Linked last upd) :=
  inferInstanceAs (Decidable (upd.pu.getD 0 = last ∧ upd.pu.getD 0 ≠ 0))

/-! ## What a call does -/

theorem nextId_eq {last u : Int64} (h : last.toInt < u.toInt) :
    nextId last = some (last + 1) ∧ (last + 1).toInt = last.toInt + 1 := by
  have hmax : u.toInt ≤ Int64.maxValue.toInt := u.toInt_le
  rw [Int64.toInt_maxValue] at hmax
  have hmin : Int64.minValue.toInt ≤ last.toInt := last.minValue_le_toInt
  rw [Int64.toInt_minValue] at hmin
  constructor
  · unfold nextId
    rw [if_neg]
    intro he
    rw [he, Int64.toInt_maxValue] at h
    omega
  · rw [Int64.toInt_add]
    have hone : (1 : Int64).toInt = 1 := rfl
    rw [hone]
    exact Int.bmod_eq_of_le (by omega) (by omega)

/-- The outcomes of a call. The sum `last_update_id + 1` is never out of range. -/
inductive Effect (readSide : List RawLevel → Except Failure (List (F × F))) (s : Feed F)
    (upd : DepthUpdate) : Feed F × Except Failure Unit → Prop where
  | stale (old : upd.u.toInt ≤ s.lastUpdateId.toInt) : Effect readSide s upd (s, .ok ())
  | gap (fresh : s.lastUpdateId.toInt < upd.u.toInt)
      (beyond : s.lastUpdateId.toInt + 1 < upd.U.toInt) (unlinked : ¬ Linked s.lastUpdateId upd) :
      Effect readSide s upd (s, .error .sequenceGap)
  | unreadable (e : Failure) (fresh : s.lastUpdateId.toInt < upd.u.toInt)
      (bad : readSide upd.b = .error e ∨ readSide upd.a = .error e) :
      Effect readSide s upd (s, .error e)
  | applied (bidD askD : List (F × F)) (fresh : s.lastUpdateId.toInt < upd.u.toInt)
      (bridged : upd.U.toInt ≤ s.lastUpdateId.toInt + 1 ∨ Linked s.lastUpdateId upd)
      (bids : readSide upd.b = .ok bidD) (asks : readSide upd.a = .ok askD) :
      Effect readSide s upd
        ({ lastUpdateId := upd.u
           book :=
            { bids := applyDeltas s.book.bids bidD
              asks := applyDeltas s.book.asks askD } }, .ok ())

theorem applyUpdate_effect (readSide : List RawLevel → Except Failure (List (F × F)))
    (s : Feed F) (upd : DepthUpdate) :
    Effect readSide s upd (applyUpdate readSide s upd) := by
  unfold applyUpdate
  dsimp only
  split
  · next hold => exact .stale (Int64.le_iff_toInt_le.mp hold)
  · next hnew =>
    have hfresh : s.lastUpdateId.toInt < upd.u.toInt := by
      rw [Int64.le_iff_toInt_le] at hnew
      omega
    obtain ⟨hnext, htoInt⟩ := nextId_eq hfresh
    rw [hnext]
    dsimp only
    split
    · next hgap =>
      rw [not_or, Int64.le_iff_toInt_le, Int64.le_iff_toInt_le, htoInt] at hgap
      exact .gap hfresh (by omega) hgap.2
    · next hbridge =>
      have hbridged := not_not.mp hbridge
      rw [Int64.le_iff_toInt_le, Int64.le_iff_toInt_le, htoInt] at hbridged
      cases hbids : readSide upd.b with
      | error e => exact .unreadable e hfresh (Or.inl hbids)
      | ok bidD =>
        cases hasks : readSide upd.a with
        | error e => exact .unreadable e hfresh (Or.inr hasks)
        | ok askD =>
          refine .applied bidD askD hfresh ?_ hbids hasks
          rcases hbridged with hwindow | hlinked
          · exact Or.inl hwindow.1
          · exact Or.inr hlinked

end CppCodes.Source.RustCpp
