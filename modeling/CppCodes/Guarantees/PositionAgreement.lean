import CppCodes.System.Trading
import Mathlib.Algebra.BigOperators.Group.Finset.Basic

/-!
# The strategy's position and the orders of the OMS

The strategy takes the side of a fill from the parity of the client order id, on
purpose and "purely for demo"; the OMS keeps the side that was requested. With
parity on both sides of the equation the two agree in every state in which all
reports have been drained.
-/

set_option autoImplicit false

namespace CppCodes.Guarantees.PositionAgreement

open CppCodes.Library
open CppCodes.Source.HftTest
open CppCodes.System CppCodes.System.Trading

/-- The filled quantity of an entry, with the sign of a side. -/
def booked (sideOf : UInt64 → OrderState → Side) (id : UInt64) : Option OrderState → Int
  | some st => Strategy.signed (sideOf id st) st.filled.toInt
  | none => 0

/-- The sum over all entries of `orders_`. -/
def bookedPosition (sideOf : UInt64 → OrderState → Side)
    (orders : Finmap (fun _ : UInt64 => OrderState)) : Int :=
  ∑ id ∈ orders.keys, booked sideOf id (orders.lookup id)

/-- The side that was requested. -/
def requestedSide (_ : UInt64) (st : OrderState) : Side := st.side

/-- The side by parity, as the strategy has it. -/
def paritySide (id : UInt64) (_ : OrderState) : Side := Strategy.sideForCloid id

variable {F : Type} [Double F]

/-- No report waits in the ring or in `pending_execs_`. -/
def AllDrained (s : State F) : Prop :=
  s.strategy.pendingExecs = [] ∧ s.net.oms.engine.outbound.contents = []

/-- What a report adds to the position, from its answer alone. -/
def signedAnswer (a : Answer) : Int :=
  match a.execType with
  | .fill | .partialFill => Strategy.signed (Strategy.sideForCloid a.clOrdId) a.fillQty.toInt
  | _ => 0

/-- What a filled order adds to the position. -/
def signedOrder (o : Order) : Int :=
  Strategy.signed (Strategy.sideForCloid o.id) o.1.qty.toInt

/-- The reports parsed are both answers of the filled orders and the
acknowledgement of the order after them. -/
theorem parsed_eq {filled rest : List Order} {acked : Option Order} {answered : List Answer}
    (h : answered ++ missing acked rest = (filled ++ (acked.toList ++ rest)).flatMap answers) :
    answered = filled.flatMap answers ++ acked.toList.map fun o => Answer.ack o.2 := by
  cases acked with
  | none =>
    rw [Option.toList_none, List.nil_append, List.flatMap_append] at h
    rw [Option.toList_none, List.map_nil, List.append_nil]
    exact List.append_cancel_right h
  | some o =>
    have hsplit : answered ++ missing (some o) rest =
        (filled.flatMap answers ++ [.ack o.2]) ++ missing (some o) rest := by
      rw [h, List.flatMap_append]
      simp [missing, answers]
    exact List.append_cancel_right hsplit

theorem sum_answers (filled : List Order) (hcarried : ∀ o ∈ filled, o.Carries) :
    ((filled.flatMap answers).map signedAnswer).sum = (filled.map signedOrder).sum := by
  induction filled with
  | nil => rfl
  | cons o filled ih =>
    have hqty := (hcarried o List.mem_cons_self).qty
    have hone : ((answers o).map signedAnswer).sum = signedOrder o := by
      simp [answers, signedAnswer, Answer.ack, Answer.fill, signedOrder, Order.id, hqty]
    rw [List.flatMap_cons, List.map_append, List.sum_append, hone,
      ih fun o' ho' => hcarried o' (List.mem_cons_of_mem _ ho'), List.map_cons, List.sum_cons]

/-- By the ledger, only the filled orders count. -/
theorem bookedPosition_ledger {engine : OmsEngine} {filled rest : List Order}
    {acked : Option Order} (h : Ledger engine filled acked rest)
    (nodup : ((filled ++ (acked.toList ++ rest)).map Order.id).Nodup) :
    bookedPosition paritySide engine.orders = (filled.map signedOrder).sum := by
  have hkeys : engine.orders.keys = ((filled ++ (acked.toList ++ rest)).map Order.id).toFinset := by
    ext id
    rw [Finmap.mem_keys, List.mem_toFinset]
    constructor
    · exact h.known id
    · intro hid
      obtain ⟨o, ho, rfl⟩ := List.mem_map.mp hid
      exact h.lookup_isSome ho
  have hclosed : ∀ o ∈ filled,
      booked paritySide o.id (engine.orders.lookup o.id) = signedOrder o := by
    intro o ho
    rw [h.closed o ho]
    rfl
  have hopen : ∀ o ∈ acked.toList ++ rest,
      booked paritySide o.id (engine.orders.lookup o.id) = 0 := by
    intro o ho
    rw [h.opened o ho]
    show Strategy.signed (Strategy.sideForCloid o.id) 0 = 0
    cases Strategy.sideForCloid o.id <;> rfl
  have hzero : ((acked.toList ++ rest).map fun o =>
      booked paritySide o.id (engine.orders.lookup o.id)).sum = 0 := by
    rw [List.map_congr_left hopen]
    simp
  unfold bookedPosition
  rw [hkeys, List.sum_toFinset _ nodup, List.map_map, List.map_append, List.sum_append]
  show (filled.map fun o => booked paritySide o.id (engine.orders.lookup o.id)).sum + _ = _
  rw [List.map_congr_left hclosed]
  exact (congrArg _ hzero).trans (Int.add_zero _)

/-- In every run without a lost report, whenever all reports have been drained, the
position is the sum over the orders of the OMS with the side taken from the
parity of the id. -/
theorem position_is_booked_by_parity (cfg : StrategyConfig F) (slots : Slots)
    (actions : List Action) (s : State F) (trace : List Event)
    (h : (machine F).Run (start cfg slots) actions s trace)
    (noLoss : (machine F).StepsMeet NoLoss (start cfg slots) actions)
    (fits : (sent trace).length < 2 ^ 64) (drained : AllDrained s) :
    s.strategy.position = bookedPosition paritySide s.net.oms.engine.orders := by
  have hwiring := run_wiring h
  obtain ⟨actions', hnet⟩ := run_net h
  have hfits : (Loopback.orders (netTrace trace)).length < 2 ^ 64 := by
    have hlen := congrArg List.length hwiring.requests
    rw [List.length_append, List.length_map] at hlen
    omega
  obtain ⟨p, hp⟩ := Loopback.run_flow hnet
  rw [hp.orders] at hfits
  have hparsed : parsed trace = Trading.drained trace := by
    have hdelivered := run_delivered h noLoss
    rw [Delivered, drained.2, List.append_nil, hwiring.heard, drained.1, List.append_nil]
      at hdelivered
    exact hdelivered.symm
  have hanswers : (Trading.drained trace).map Answer.ofUpdate =
      p.filled.flatMap answers ++ p.acked.toList.map fun o => Answer.ack o.2 := by
    rw [← hparsed]
    exact parsed_eq hp.parsed
  have hacks : ((p.acked.toList.map fun o => Answer.ack o.2).map signedAnswer).sum = 0 := by
    cases p.acked <;> rfl
  calc s.strategy.position
      = ((Trading.drained trace).map Strategy.signedFill).sum := hwiring.position
    _ = (((Trading.drained trace).map Answer.ofUpdate).map signedAnswer).sum := by
        rw [List.map_map]
        rfl
    _ = (p.filled.map signedOrder).sum := by
        rw [hanswers, List.map_append, List.sum_append, hacks, Int.add_zero,
          sum_answers p.filled fun o ho => hp.issued.carried o (by simp [Loopback.Progress.sent, ho])]
    _ = bookedPosition paritySide s.net.oms.engine.orders :=
        (bookedPosition_ledger (hp.ledger hfits) (hp.issued.nodup hfits)).symm

/-! ## A buy order with the odd id 1 -/

/-- Three events at mid 1000, one at 999, which is 1.5 deviations below the mean:
the strategy buys. The order goes all the way, and the next event drains both
reports. -/
def buyAtOddId : List Action :=
  [.onBook ⟨1, [⟨.buy, 990, 1⟩, ⟨.sell, 1010, 1⟩]⟩, .onBook ⟨2, []⟩, .onBook ⟨3, []⟩,
    .onBook ⟨4, [⟨.sell, 1008, 1⟩]⟩, .takeOrder 0 (0, 0), .net (.oms (.send (.accepted 60))),
    .net (.simRecv 60), .net (.sim (.parse 0 0 (0, 0))), .net (.sim (.send (.accepted 76))),
    .net (.sim (.fill 0 (0, 0))), .net (.sim (.send (.accepted 76))), .net (.omsRecv 152),
    .net (.oms (.parse 0)), .net (.oms (.parse 0)), .popExec, .popExec, .onBook ⟨5, []⟩]

theorem buyAtOddId_enabled :
    ((machine ℚ).exec (start .default {}) buyAtOddId).isSome = true := by
  decide +kernel

/-- The strategy books the fill as a sale, the OMS as the purchase it was. -/
theorem odd_buy_is_sold :
    ∃ s trace, (machine ℚ).Run (start .default {}) buyAtOddId s trace ∧
      (machine ℚ).StepsMeet NoLoss (start .default {}) buyAtOddId ∧ AllDrained s ∧
      s.strategy.position = -1 ∧ bookedPosition requestedSide s.net.oms.engine.orders = 1 := by
  have hrun := Machine.run_of_isSome _ _ buyAtOddId_enabled
  refine ⟨_, _, hrun, ?_, ?_, ?_, ?_⟩
  · decide +kernel
  · unfold AllDrained
    decide +kernel
  · decide +kernel
  · decide +kernel

theorem position_is_booked_by_parity_odd_buy :
    ∃ s trace, (machine ℚ).Run (start .default {}) buyAtOddId s trace ∧
      s.strategy.position = bookedPosition paritySide s.net.oms.engine.orders := by
  have hrun := Machine.run_of_isSome _ _ buyAtOddId_enabled
  refine ⟨_, _, hrun, position_is_booked_by_parity _ _ _ _ _ hrun ?_ ?_ ?_⟩
  · decide +kernel
  · decide +kernel
  · unfold AllDrained
    decide +kernel

end CppCodes.Guarantees.PositionAgreement
