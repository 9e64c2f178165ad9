import CppCodes.Library.SortedMap
import CppCodes.Source.HftTest.Common
import Mathlib.Algebra.Order.Group.Int
import Mathlib.Data.Rat.Sqrt
import Mathlib.Algebra.Order.Ring.Rat

/-!
# The strategy thread

Source: hft_test/src/hft_main.cpp:31-204 and hft_test/include/hft_common.h:27-43,
71-89. Everything is generic in the type that stands for `double`, so a result
without a law for it holds of any arithmetic, IEEE included; `ℚ` is the exact
reading. Prices, quantities and the position of the strategy are integers: where
`int64_t` would overflow the source has no defined behaviour. Timers, telemetry
and `last_req_id_`, which nothing reads, are left out.
-/

set_option autoImplicit false

namespace CppCodes.Source.HftTest

open CppCodes.Library

/-- The operations on `double` that the strategy uses. -/
class Double (F : Type) extends Add F, Sub F, Mul F, Div F where
  /-- Conversion from an integer type. -/
  ofInt : Int → F
  sqrt : F → F
  abs : F → F
  lt : F → F → Bool
  le : F → F → Bool
  /-- Truncation towards zero. -/
  toInt : F → Int
  /-- The decimal literal `m / 10`. -/
  tenths : Int → F

/-- Exact rationals; the square root is exact on squares and rounds down elsewhere. -/
instance : Double ℚ where
  ofInt n := n
  sqrt := Rat.sqrt
  abs x := |x|
  lt x y := decide (x < y)
  le x y := decide (x ≤ y)
  toInt x := x.num.tdiv x.den
  tenths m := m / 10

structure LevelDelta where
  side : Side
  px : Int
  qty : Int
  deriving DecidableEq

structure BookDelta where
  mdEventId : UInt64
  levels : List LevelDelta
  deriving DecidableEq

structure OrderBook where
  bids : SortedMap Int Int := .empty
  asks : SortedMap Int Int := .empty

namespace OrderBook

def applyLevel (book : SortedMap Int Int) (lvl : LevelDelta) : SortedMap Int Int :=
  if lvl.qty = 0 then book.erase lvl.px else book.insert lvl.px lvl.qty

def apply (ob : OrderBook) (delta : BookDelta) : OrderBook :=
  delta.levels.foldl (fun ob lvl =>
    match lvl.side with
    | .buy => { ob with bids := applyLevel ob.bids lvl }
    | .sell => { ob with asks := applyLevel ob.asks lvl }) ob

def bestBidPx (ob : OrderBook) : Option Int := ob.bids.last?.map Prod.fst
def bestAskPx (ob : OrderBook) : Option Int := ob.asks.first?.map Prod.fst

def mid {F : Type} [Double F] (ob : OrderBook) : Option F :=
  match ob.bestBidPx, ob.bestAskPx with
  | some bid, some ask => some ((Double.ofInt bid + Double.ofInt ask) / Double.ofInt 2)
  | _, _ => none

def spread (ob : OrderBook) : Option Int :=
  match ob.bestBidPx, ob.bestAskPx with
  | some bid, some ask => some (ask - bid)
  | _, _ => none

/-- Both functions look at the same two sides. -/
theorem mid_of_spread {F : Type} [Double F] {ob : OrderBook} {spread : Int}
    (h : ob.spread = some spread) : ∃ mid : F, ob.mid = some mid := by
  unfold OrderBook.spread at h
  unfold OrderBook.mid
  split at h
  · exact ⟨_, rfl⟩
  · cases h

end OrderBook

structure RollingStats (F : Type) where
  n : Nat
  mean : F
  m2 : F

structure StrategyConfig (F : Type) where
  zEnter : F
  zExit : F
  tpTicks : F
  slTicks : F
  posLimit : Int := 1
  tickSize : Int := 10

variable {F : Type} [Double F]

def zero : F := Double.ofInt 0

namespace RollingStats

def empty : RollingStats F := ⟨0, zero, zero⟩

/-- `n` is a `uint64_t`. -/
def add (r : RollingStats F) (x : F) : RollingStats F :=
  let n : Nat := (r.n + 1) % 2 ^ 64
  let delta := x - r.mean
  let mean := r.mean + delta / Double.ofInt n
  let delta2 := x - mean
  ⟨n, mean, r.m2 + delta * delta2⟩

def stddev (r : RollingStats F) : F :=
  if r.n < 2 then zero else Double.sqrt (r.m2 / Double.ofInt (r.n - 1 : Nat))

end RollingStats

/-- `StrategyConfig{}`. -/
def StrategyConfig.default : StrategyConfig F where
  zEnter := Double.tenths 15
  zExit := Double.tenths 2
  tpTicks := Double.ofInt 150
  slTicks := Double.ofInt (-150)

structure Strategy (F : Type) where
  cfg : StrategyConfig F
  stats : RollingStats F
  position : Int := 0
  avgPx : F
  realizedPnl : F
  activeOrder : Bool := false
  pendingExecs : List ExecUpdate := []

namespace Strategy

def init (cfg : StrategyConfig F) : Strategy F where
  cfg := cfg
  stats := .empty
  avgPx := zero
  realizedPnl := zero

/-- Parity to determine side (even -> buy, odd -> sell). -/
def sideForCloid (clordid : UInt64) : Side := if clordid % 2 = 0 then .buy else .sell

/-- A quantity with the sign its side gives it. -/
def signed (side : Side) (qty : Int) : Int :=
  match side with
  | .buy => qty
  | .sell => -qty

def applyFill (s : Strategy F) (ex : ExecUpdate) : Strategy F :=
  let signedQty := signed (sideForCloid ex.clOrdId) ex.fillQty.toInt
  let fillPx := ex.fillPx.toInt
  let newPos := s.position + signedQty
  if (s.position > 0 ∧ signedQty > 0) ∨ (s.position < 0 ∧ signedQty < 0) then
    { s with
      avgPx := (s.avgPx * Double.ofInt |s.position| + Double.ofInt (fillPx * |signedQty|)) /
        Double.ofInt |newPos|
      position := newPos }
  else if newPos = 0 then
    { s with
      realizedPnl := s.realizedPnl +
        (if s.position > 0 then Double.ofInt fillPx - s.avgPx
          else s.avgPx - Double.ofInt fillPx) * Double.ofInt |s.position|
      avgPx := zero
      position := newPos }
  else { s with position := newPos }

/-- One report of `drain_execs`. -/
def applyExec (s : Strategy F) (ex : ExecUpdate) : Strategy F :=
  match ex.execType with
  | .ack => { s with activeOrder := false }
  | .fill | .partialFill => { s.applyFill ex with activeOrder := false }
  | .reject | .cancel => { s with activeOrder := false }
  | .unnamed _ _ => s

def drainExecs (s : Strategy F) : Strategy F :=
  { s.pendingExecs.foldl applyExec s with pendingExecs := [] }

def onExec (s : Strategy F) (ex : ExecUpdate) : Strategy F :=
  { s with pendingExecs := s.pendingExecs ++ [ex] }

/-- The request that `send_close` hands to `send_order_`, if any. -/
def sendClose (s : Strategy F) (mdEventId : UInt64) (px : Int) : Option OrderRequest :=
  if s.activeOrder then none
  else some {
    reqId := mdEventId
    mdEventId := mdEventId
    side := if s.position > 0 then .sell else .buy
    px := .ofInt px
    qty := .ofInt |s.position| }

def exitConditions (s : Strategy F) (mid z : F) : Bool :=
  let unrealized :=
    (if s.position > 0 then mid - s.avgPx else s.avgPx - mid) * Double.ofInt |s.position|
  let hitTp := Double.le s.cfg.tpTicks unrealized
  let hitSl := Double.le unrealized s.cfg.slTicks
  let revert := Double.lt (Double.abs z) s.cfg.zExit
  hitTp || hitSl || revert

/-- The request that `strategy_decision` hands to `send_order_`, if any. -/
def strategyDecision (s : Strategy F) (mdEventId : UInt64) (mid z : F) (spread : Int) :
    Option OrderRequest :=
  let px := Double.toInt mid
  if s.position ≠ 0 ∧ s.exitConditions mid z = true then s.sendClose mdEventId px
  else if s.activeOrder then none
  else if Double.lt (Double.abs z) s.cfg.zEnter then none
  else if spread > s.cfg.tickSize * 5 then none
  else if |s.position| ≥ s.cfg.posLimit then none
  else some {
    reqId := mdEventId
    mdEventId := mdEventId
    side := if Double.lt zero z then .sell else .buy
    px := .ofInt px
    qty := 1 }

/-- A request that `send_order_` accepted is the active order. -/
def afterSend (s : Strategy F) (accepted : Bool) : Strategy F :=
  if accepted then { s with activeOrder := true } else s

def zScore (stats : RollingStats F) (mid : F) : F :=
  let stdev := stats.stddev
  if Double.lt zero stdev then (mid - stats.mean) / stdev else zero

/-- `on_book` with `send_order_` as a parameter; also the request handed to it,
with its answer. -/
def onBook (s : Strategy F) (ob : OrderBook) (delta : BookDelta)
    (sendOrder : OrderRequest → Bool) :
    Strategy F × OrderBook × Option (OrderRequest × Bool) :=
  let ob := ob.apply delta
  match (ob.mid : Option F), ob.spread with
  | some mid, some spread =>
      let stats := s.stats.add mid
      let s := { s with stats }
      match s.strategyDecision delta.mdEventId mid (zScore stats mid) spread with
      | none => (s.drainExecs, ob, none)
      | some req =>
          let accepted := sendOrder req
          ((s.afterSend accepted).drainExecs, ob, some (req, accepted))
  | _, _ => (s, ob, none)

/-! ## What the reports do to the position and to the active order -/

/-- What a report adds to the position. -/
def signedFill (ex : ExecUpdate) : Int :=
  match ex.execType with
  | .fill | .partialFill => signed (sideForCloid ex.clOrdId) ex.fillQty.toInt
  | _ => 0

/-- The report is one of the five kinds that clear the active order. -/
def clears (ex : ExecUpdate) : Bool :=
  match ex.execType with
  | .unnamed _ _ => false
  | _ => true

theorem applyFill_position (s : Strategy F) (ex : ExecUpdate) :
    (s.applyFill ex).position = s.position + signed (sideForCloid ex.clOrdId) ex.fillQty.toInt := by
  unfold applyFill
  dsimp only
  split
  · rfl
  · split
    · rfl
    · rfl

theorem applyExec_position (s : Strategy F) (ex : ExecUpdate) :
    (s.applyExec ex).position = s.position + signedFill ex := by
  unfold applyExec signedFill
  cases ex.execType with
  | fill => exact applyFill_position s ex
  | partialFill => exact applyFill_position s ex
  | _ => exact (Int.add_zero _).symm

theorem applyExec_activeOrder (s : Strategy F) (ex : ExecUpdate) :
    (s.applyExec ex).activeOrder = (s.activeOrder && !clears ex) := by
  unfold applyExec clears
  cases ex.execType <;> simp

theorem drainExecs_position (s : Strategy F) :
    s.drainExecs.position = s.position + (s.pendingExecs.map signedFill).sum := by
  have hfold : ∀ (execs : List ExecUpdate) (s : Strategy F),
      (execs.foldl applyExec s).position = s.position + (execs.map signedFill).sum := by
    intro execs
    induction execs with
    | nil => exact fun s => (Int.add_zero _).symm
    | cons ex execs ih =>
      intro s
      rw [List.foldl_cons, ih, applyExec_position, List.map_cons, List.sum_cons, Int.add_assoc]
  exact hfold s.pendingExecs s

theorem drainExecs_activeOrder (s : Strategy F) :
    s.drainExecs.activeOrder = (s.activeOrder && s.pendingExecs.all fun ex => !clears ex) := by
  have hfold : ∀ (execs : List ExecUpdate) (s : Strategy F),
      (execs.foldl applyExec s).activeOrder =
        (s.activeOrder && execs.all fun ex => !clears ex) := by
    intro execs
    induction execs with
    | nil => exact fun s => (Bool.and_true _).symm
    | cons ex execs ih =>
      intro s
      rw [List.foldl_cons, ih, applyExec_activeOrder, List.all_cons, Bool.and_assoc]
  exact hfold s.pendingExecs s

/-- Nothing is sent while an order is active. -/
theorem strategyDecision_inactive {s : Strategy F} {mdEventId : UInt64} {mid z : F} {spread : Int}
    {req : OrderRequest} (h : s.strategyDecision mdEventId mid z spread = some req) :
    s.activeOrder = false := by
  cases hactive : s.activeOrder with
  | false => rfl
  | true =>
    unfold strategyDecision sendClose at h
    rw [hactive] at h
    simp at h

/-- `on_book` on a book with both sides: the decision and its effect, then the drain. -/
theorem onBook_reached (s : Strategy F) {ob : OrderBook} {delta : BookDelta}
    (sendOrder : OrderRequest → Bool) {mid : F} {spread : Int}
    (hmid : (ob.apply delta).mid = some mid) (hspread : (ob.apply delta).spread = some spread) :
    ∃ stats, ((s.onBook ob delta sendOrder).2.2 = none ∧
        (s.onBook ob delta sendOrder).1 = ({ s with stats } : Strategy F).drainExecs) ∨
      ∃ req, (s.onBook ob delta sendOrder).2.2 = some (req, sendOrder req) ∧
        s.activeOrder = false ∧
        (s.onBook ob delta sendOrder).1 =
          (({ s with stats } : Strategy F).afterSend (sendOrder req)).drainExecs := by
  refine ⟨s.stats.add mid, ?_⟩
  simp only [onBook, hmid, hspread]
  cases hreq : strategyDecision { s with stats := s.stats.add mid } delta.mdEventId mid
      (zScore (s.stats.add mid) mid) spread with
  | none => exact Or.inl ⟨rfl, rfl⟩
  | some req => exact Or.inr ⟨req, rfl, strategyDecision_inactive hreq, rfl⟩

theorem onBook_book (s : Strategy F) (ob : OrderBook) (delta : BookDelta)
    (sendOrder : OrderRequest → Bool) : (s.onBook ob delta sendOrder).2.1 = ob.apply delta := by
  unfold onBook
  dsimp only
  split
  · split <;> rfl
  · rfl

/-- On a one-sided book `on_book` only applies the delta. -/
theorem onBook_unreached {s : Strategy F} {ob : OrderBook} {delta : BookDelta}
    {sendOrder : OrderRequest → Bool}
    (h : ((ob.apply delta).mid : Option F) = none ∨ (ob.apply delta).spread = none) :
    s.onBook ob delta sendOrder = (s, ob.apply delta, none) := by
  unfold onBook
  dsimp only
  split
  · next hmid hspread =>
    rcases h with h | h
    · rw [h] at hmid
      cases hmid
    · rw [h] at hspread
      cases hspread
  · rfl

end Strategy

end CppCodes.Source.HftTest
