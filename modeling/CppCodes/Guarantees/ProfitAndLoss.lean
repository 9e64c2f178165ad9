import CppCodes.Source.HftTest.Strategy
import Mathlib.Algebra.BigOperators.Group.List.Basic
import Mathlib.Algebra.Order.Field.Rat
import Mathlib.Tactic.Linarith
import Mathlib.Tactic.Ring

/-!
# Profit and loss against the cash paid

`apply_fill` sets the average price only when a position is added to and books
profit only when one is closed exactly. A fill that opens, reduces or flips a
position changes the position and nothing else, so the identity between booked
and marked profit is off by what such a fill cost above the average price.
-/

set_option autoImplicit false

namespace CppCodes.Guarantees.ProfitAndLoss

open CppCodes.Source.HftTest
open CppCodes.Source.HftTest.Strategy

def signedQty (ex : ExecUpdate) : Int := signed (sideForCloid ex.clOrdId) ex.fillQty.toInt

/-- What a fill costs: `signed_qty * fill_px`. -/
def cost (ex : ExecUpdate) : ℚ := (signedQty ex : ℚ) * (ex.fillPx.toInt : ℚ)

def totalCost (fills : List ExecUpdate) : ℚ := (fills.map cost).sum

/-- Realized profit and the marked position are worth the position less its cost. -/
def Identity (s : Strategy ℚ) (fills : List ExecUpdate) (m : ℚ) : Prop :=
  s.realizedPnl + s.position * (m - s.avgPx) = s.position * m - totalCost fills

/-- The fill adds to the position or closes it: the two cases `apply_fill` books. -/
def Booked (s : Strategy ℚ) (ex : ExecUpdate) : Prop :=
  (s.position > 0 ∧ signedQty ex > 0) ∨ (s.position < 0 ∧ signedQty ex < 0) ∨
    s.position + signedQty ex = 0

instance (s : Strategy ℚ) (ex : ExecUpdate) : Decidable (Booked s ex) := instDecidableOr

/-- What a fill that is not booked leaves out. -/
def omitted (s : Strategy ℚ) (ex : ExecUpdate) : ℚ :=
  if Booked s ex then 0 else (signedQty ex : ℚ) * ((ex.fillPx.toInt : ℚ) - s.avgPx)

def totalOmitted : Strategy ℚ → List ExecUpdate → ℚ
  | _, [] => 0
  | s, ex :: rest => omitted s ex + totalOmitted (s.applyFill ex) rest

/-- The distance from the identity, the same at every mark price. -/
def imbalance (s : Strategy ℚ) (fills : List ExecUpdate) : ℚ :=
  s.realizedPnl - s.position * s.avgPx + totalCost fills

theorem identity_iff_imbalance (s : Strategy ℚ) (fills : List ExecUpdate) (m : ℚ) :
    Identity s fills m ↔ imbalance s fills = 0 := by
  unfold Identity imbalance
  constructor
  · intro h
    linarith
  · intro h
    linarith

theorem totalCost_concat (fills : List ExecUpdate) (ex : ExecUpdate) :
    totalCost (fills ++ [ex]) = totalCost fills + cost ex := by
  simp [totalCost]

/-- The average price of a position added to is its cost per share. -/
theorem added_average {pos qty : Int} (h : (pos > 0 ∧ qty > 0) ∨ (pos < 0 ∧ qty < 0))
    (avg : ℚ) (px : Int) :
    ((pos + qty : Int) : ℚ) *
        ((avg * ((|pos| : Int) : ℚ) + ((px * |qty| : Int) : ℚ)) / ((|pos + qty| : Int) : ℚ)) =
      pos * avg + qty * px := by
  rcases h with ⟨hpos, hqty⟩ | ⟨hpos, hqty⟩
  · have hne : ((pos + qty : Int) : ℚ) ≠ 0 := by
      have hsum : pos + qty ≠ 0 := by omega
      exact_mod_cast hsum
    rw [abs_of_pos hpos, abs_of_pos hqty, abs_of_pos (by omega : pos + qty > 0),
      mul_div_cancel₀ _ hne]
    push_cast
    ring
  · have hne : ((-(pos + qty) : Int) : ℚ) ≠ 0 := by
      have hsum : -(pos + qty) ≠ 0 := by omega
      exact_mod_cast hsum
    have hneg : ((pos + qty : Int) : ℚ) = -((-(pos + qty) : Int) : ℚ) := by
      push_cast
      ring
    rw [abs_of_neg hpos, abs_of_neg hqty, abs_of_neg (by omega : pos + qty < 0), hneg, neg_mul,
      mul_div_cancel₀ _ hne]
    push_cast
    ring

/-- One fill moves the imbalance by exactly what it leaves out. -/
theorem applyFill_imbalance (s : Strategy ℚ) (fills : List ExecUpdate) (ex : ExecUpdate) :
    imbalance (s.applyFill ex) (fills ++ [ex]) = imbalance s fills + omitted s ex := by
  have hsplit : imbalance (s.applyFill ex) (fills ++ [ex]) =
      (s.applyFill ex).realizedPnl - (s.applyFill ex).position * (s.applyFill ex).avgPx +
        (totalCost fills + cost ex) := by
    rw [imbalance, totalCost_concat]
  rw [hsplit, imbalance, cost]
  by_cases hadd : (s.position > 0 ∧ signedQty ex > 0) ∨ (s.position < 0 ∧ signedQty ex < 0)
  · have hbooked : omitted s ex = 0 := if_pos (by
      rcases hadd with h | h
      · exact Or.inl h
      · exact Or.inr (Or.inl h))
    have hfill : s.applyFill ex = { s with
        avgPx := (s.avgPx * ((|s.position| : Int) : ℚ) +
          ((ex.fillPx.toInt * |signedQty ex| : Int) : ℚ)) /
            ((|s.position + signedQty ex| : Int) : ℚ)
        position := s.position + signedQty ex } := if_pos hadd
    have havg := added_average hadd s.avgPx ex.fillPx.toInt
    rw [hbooked, hfill]
    dsimp only
    rw [havg]
    ring
  · by_cases hclose : s.position + signedQty ex = 0
    · have hbooked : omitted s ex = 0 := if_pos (Or.inr (Or.inr hclose))
      have hqty : ((signedQty ex : Int) : ℚ) = -(s.position : ℚ) := by
        have hneg : signedQty ex = -s.position := by omega
        rw [hneg]
        push_cast
        ring
      have hfill : s.applyFill ex = { s with
          realizedPnl := s.realizedPnl +
            (if s.position > 0 then ((ex.fillPx.toInt : Int) : ℚ) - s.avgPx
              else s.avgPx - ((ex.fillPx.toInt : Int) : ℚ)) * ((|s.position| : Int) : ℚ)
          avgPx := ((0 : Int) : ℚ)
          position := s.position + signedQty ex } := (if_neg hadd).trans (if_pos hclose)
      rw [hbooked, hfill]
      dsimp only
      rw [hclose, hqty]
      by_cases hpos : s.position > 0
      · rw [if_pos hpos, abs_of_pos hpos]
        push_cast
        ring
      · rw [if_neg hpos, abs_of_nonpos (by omega)]
        push_cast
        ring
    · have hopen : omitted s ex = (signedQty ex : ℚ) * ((ex.fillPx.toInt : ℚ) - s.avgPx) :=
        if_neg (by
          rintro (h | h | h)
          · exact hadd (Or.inl h)
          · exact hadd (Or.inr h)
          · exact hclose h)
      have hfill : s.applyFill ex = { s with position := s.position + signedQty ex } :=
        (if_neg hadd).trans (if_neg hclose)
      rw [hopen, hfill]
      dsimp only
      push_cast
      ring

theorem foldl_imbalance (s : Strategy ℚ) (before fills : List ExecUpdate) :
    imbalance (fills.foldl applyFill s) (before ++ fills) =
      imbalance s before + totalOmitted s fills := by
  induction fills generalizing s before with
  | nil => simp [totalOmitted]
  | cons ex rest ih =>
    have hsnoc : before ++ ex :: rest = before ++ [ex] ++ rest := by simp
    rw [List.foldl_cons, hsnoc, ih, applyFill_imbalance, totalOmitted]
    ring

theorem init_imbalance (cfg : StrategyConfig ℚ) : imbalance (init cfg) [] = 0 := by
  simp [imbalance, init, totalCost, zero, Double.ofInt]

theorem identity_after_iff (cfg : StrategyConfig ℚ) (fills : List ExecUpdate) (m : ℚ) :
    Identity (fills.foldl applyFill (init cfg)) fills m ↔ totalOmitted (init cfg) fills = 0 := by
  have hfold := foldl_imbalance (init cfg) [] fills
  rw [List.nil_append, init_imbalance, zero_add] at hfold
  rw [identity_iff_imbalance, hfold]

/-- The first fill opens a position and is never booked. -/
theorem omitted_first (cfg : StrategyConfig ℚ) (ex : ExecUpdate) (hqty : ex.fillQty.toInt > 0)
    (hpx : ex.fillPx.toInt > 0) : omitted (init cfg) ex ≠ 0 := by
  have hne : signedQty ex ≠ 0 := by
    unfold signedQty signed
    split <;> omega
  have hopen : ¬ Booked (init cfg) ex := by
    unfold Booked init
    dsimp only
    omega
  rw [omitted, if_neg hopen]
  simpa [init, zero, Double.ofInt] using And.intro hne (show ex.fillPx.toInt ≠ 0 by omega)

/-- The identity holds after a sequence of fills exactly when the amounts that its
opening, reducing and flipping fills leave out cancel; it holds all along a
sequence only if there is no fill in it. -/
theorem identity_exactly_when_nothing_omitted (cfg : StrategyConfig ℚ) (fills : List ExecUpdate)
    (hpos : ∀ ex ∈ fills, ex.fillQty.toInt > 0 ∧ ex.fillPx.toInt > 0) :
    ((∀ m, Identity (fills.foldl applyFill (init cfg)) fills m) ↔
        totalOmitted (init cfg) fills = 0) ∧
      ((∀ seen, seen <+: fills → ∀ m, Identity (seen.foldl applyFill (init cfg)) seen m) ↔
        fills = []) := by
  refine ⟨?_, ?_⟩
  · constructor
    · exact fun h => (identity_after_iff cfg fills 0).mp (h 0)
    · exact fun h m => (identity_after_iff cfg fills m).mpr h
  · constructor
    · intro h
      cases fills with
      | nil => rfl
      | cons ex rest =>
        have hone := (identity_after_iff cfg [ex] 0).mp (h [ex] ⟨rest, rfl⟩ 0)
        obtain ⟨hqty, hpx⟩ := hpos ex List.mem_cons_self
        rw [totalOmitted, totalOmitted, add_zero] at hone
        exact absurd hone (omitted_first cfg ex hqty hpx)
    · intro h seen hseen m
      rw [h, List.prefix_nil] at hseen
      rw [hseen]
      exact (identity_after_iff cfg [] m).mpr rfl

/-- One share bought at 100 from flat: the position is marked against price zero. -/
theorem opening_buy_breaks_identity :
    ¬ Identity
      ([{ clOrdId := 2, execType := .fill, fillPx := 100, fillQty := 1 }].foldl applyFill
        (init StrategyConfig.default))
      [{ clOrdId := 2, execType := .fill, fillPx := 100, fillQty := 1 }] 0 := by
  unfold Identity
  decide +kernel

/-- Bought at 100, sold at 100, then sold at 100 from flat: the first and the
third fill leave out amounts that cancel. -/
theorem identity_exactly_when_nothing_omitted_three_fills :
    totalOmitted (init StrategyConfig.default)
        [{ clOrdId := 2, execType := .fill, fillPx := 100, fillQty := 1 },
          { clOrdId := 3, execType := .fill, fillPx := 100, fillQty := 1 },
          { clOrdId := 5, execType := .fill, fillPx := 100, fillQty := 1 }] = 0 ∧
      ∀ m, Identity
        ([{ clOrdId := 2, execType := .fill, fillPx := 100, fillQty := 1 },
          { clOrdId := 3, execType := .fill, fillPx := 100, fillQty := 1 },
          { clOrdId := 5, execType := .fill, fillPx := 100, fillQty := 1 }].foldl applyFill
          (init StrategyConfig.default))
        [{ clOrdId := 2, execType := .fill, fillPx := 100, fillQty := 1 },
          { clOrdId := 3, execType := .fill, fillPx := 100, fillQty := 1 },
          { clOrdId := 5, execType := .fill, fillPx := 100, fillQty := 1 }] m := by
  have hzero : totalOmitted (init StrategyConfig.default)
      [{ clOrdId := 2, execType := .fill, fillPx := 100, fillQty := 1 },
        { clOrdId := 3, execType := .fill, fillPx := 100, fillQty := 1 },
        { clOrdId := 5, execType := .fill, fillPx := 100, fillQty := 1 }] = 0 := by
    decide +kernel
  exact ⟨hzero,
    (identity_exactly_when_nothing_omitted _ _ (by decide +kernel)).1.mpr hzero⟩

end CppCodes.Guarantees.ProfitAndLoss
