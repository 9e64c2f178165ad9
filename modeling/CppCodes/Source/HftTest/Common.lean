import Mathlib.Tactic.Common

/-!
# Shared data of the trading prototype

Source: hft_test/include/hft_common.h:23-69. Fixed-width integers keep their
width; prices and quantities are `int64_t`. `OrderRequest::signal_z` is written
by the strategy and read by nobody, so it is left out.
-/

set_option autoImplicit false

namespace CppCodes.Source.HftTest

abbrev Bytes := List UInt8

inductive Side where
  | buy | sell
  deriving DecidableEq, Repr

inductive OrderType where
  | limit
  deriving DecidableEq, Repr

inductive TimeInForce where
  | gtc
  deriving DecidableEq, Repr

/-- `enum class ExecType : uint8_t`. Its underlying type is fixed, so a cast from
any octet is a value of the enumeration; the ones without a name are `unnamed`. -/
inductive ExecType where
  | ack | fill | partialFill | reject | cancel
  | unnamed (raw : UInt8) (beyond : 4 < raw)
  deriving DecidableEq

/-- `static_cast<ExecType>` of an octet. -/
def ExecType.ofByte (raw : UInt8) : ExecType :=
  if beyond : 4 < raw then .unnamed raw beyond
  else if raw = 0 then .ack
  else if raw = 1 then .fill
  else if raw = 2 then .partialFill
  else if raw = 3 then .reject
  else .cancel

/-- `static_cast<uint8_t>` of an enumerator. -/
def ExecType.toByte : ExecType → UInt8
  | .ack => 0
  | .fill => 1
  | .partialFill => 2
  | .reject => 3
  | .cancel => 4
  | .unnamed raw _ => raw

@[simp] theorem ExecType.ofByte_toByte (e : ExecType) : ExecType.ofByte e.toByte = e := by
  cases e with
  | unnamed raw beyond => simp [ExecType.ofByte, ExecType.toByte, beyond]
  | _ => rfl

/-- A report that ends the life of its order. -/
def ExecType.terminal : ExecType → Bool
  | .fill | .reject | .cancel => true
  | _ => false

def Side.toByte : Side → UInt8
  | .buy => 0
  | .sell => 1

def OrderType.toByte : OrderType → UInt8
  | .limit => 0

def TimeInForce.toByte : TimeInForce → UInt8
  | .gtc => 0

structure OrderRequest where
  reqId : UInt64 := 0
  mdEventId : UInt64 := 0
  side : Side := .buy
  px : Int64 := 0
  qty : Int64 := 0
  type : OrderType := .limit
  tif : TimeInForce := .gtc
  deriving DecidableEq

structure ExecUpdate where
  clOrdId : UInt64 := 0
  mdEventId : UInt64 := 0
  execType : ExecType := .ack
  fillPx : Int64 := 0
  fillQty : Int64 := 0
  tsOmsRecvNs : Int64 := 0
  deriving DecidableEq

structure OrderState where
  mdEventId : UInt64 := 0
  side : Side := .buy
  px : Int64 := 0
  qty : Int64 := 0
  state : ExecType := .ack
  filled : Int64 := 0
  deriving DecidableEq

end CppCodes.Source.HftTest
