import CppCodes.Source.FrameWork.Logging
import CppCodes.Source.FrameWork.Pipeline
import CppCodes.Library.SortedMap
import Mathlib.Order.WithBot

/-!
# The depth connector

Source: frame_work/src/order_book.h:12-34, order_book.cpp:5-30 and
binance_depth.cpp:28-37, 62-73, 82-122. What the two libraries make of a text and of a
number is a parameter, as are the texts of their errors. `machine` runs the connector's
thread up to its next load, read or push, with the thread of the shard that empties the
queue, the logger and `main` in between. Setting up the connection is left out.
-/

set_option autoImplicit false

namespace CppCodes.Source.FrameWork

open CppCodes.Library CppCodes.Source.HftTest

/-- The rational numbers between the two infinities. -/
abbrev Extended := WithBot (WithTop ℚ)

/-- A `double`, as `std::stod` returns it. NaN is in no order with anything. -/
inductive DoubleValue where
  | nan
  | number (x : Extended)
  deriving DecidableEq

namespace DoubleValue

def finite (q : ℚ) : DoubleValue := .number ((q : WithTop ℚ) : Extended)

/-- `<` -/
def lt : DoubleValue → DoubleValue → Bool
  | .number x, .number y => decide (x < y)
  | _, _ => false

/-- `<=` -/
def le : DoubleValue → DoubleValue → Bool
  | .number x, .number y => decide (x ≤ y)
  | _, _ => false

/-- `std::min` -/
def min (a b : DoubleValue) : DoubleValue := if b.lt a then b else a

end DoubleValue

structure PriceLevel where
  price : DoubleValue
  qty : DoubleValue
  deriving DecidableEq

structure BestBidAsk where
  bid : DoubleValue
  bidQty : DoubleValue
  ask : DoubleValue
  askQty : DoubleValue
  updateId : Int

namespace BinanceDepth

/-- `std::greater` only turns the iteration over the bids round. -/
structure OrderBook where
  bids : SortedMap Extended DoubleValue := .empty
  asks : SortedMap Extended DoubleValue := .empty
  lastUpdateId : Int := 0

/-- The body of the loop over one side's levels. With NaN among the keys of a map they are
no longer ordered, and what the map does is undefined. -/
def applyLevel (side : SortedMap Extended DoubleValue) (lvl : PriceLevel) :
    Option (SortedMap Extended DoubleValue) :=
  match lvl.price with
  | .nan => none
  | .number price =>
      some (if lvl.qty = .finite 0 then side.erase price else side.insert price lvl.qty)

def OrderBook.applyDeltas (book : OrderBook) (bids asks : List PriceLevel) (updateId : Int) :
    Option OrderBook := do
  let bidSide ← bids.foldlM applyLevel book.bids
  let askSide ← asks.foldlM applyLevel book.asks
  return ⟨bidSide, askSide, updateId⟩

def OrderBook.best (book : OrderBook) : Option BestBidAsk :=
  match book.bids.last?, book.asks.first? with
  | some bid, some ask => some ⟨.number bid.1, bid.2, .number ask.1, ask.2, book.lastUpdateId⟩
  | _, _ => none

/-- `boost::json::value`; a number is an `int64` when it fits one. -/
inductive Value where
  | string (s : String)
  | int64 (n : Int)
  | array (items : List Value)
  | object (members : List (String × Value))
  | other

/-- What is called of `boost::json` and of the standard library, with the texts of what
each `as_…` and each `at` throws. -/
structure Libraries where
  parse : String → Except String Value
  stod : String → Except String DoubleValue
  notObject : String
  notArray : String
  notString : String
  notInt64 : String
  noMember : String
  noItem : String

namespace Libraries

variable (lib : Libraries)

def asObject : Value → Except String (List (String × Value))
  | .object members => .ok members
  | _ => .error lib.notObject

def asArray : Value → Except String (List Value)
  | .array items => .ok items
  | _ => .error lib.notArray

def asString : Value → Except String String
  | .string s => .ok s
  | _ => .error lib.notString

def asInt64 : Value → Except String Int
  | .int64 n => .ok n
  | _ => .error lib.notInt64

/-- `obj.at(key)` -/
def member (obj : List (String × Value)) (key : String) : Except String Value :=
  match obj.lookup key with
  | some v => .ok v
  | none => .error lib.noMember

/-- `arr.at(i)` -/
def item (arr : List Value) (i : Nat) : Except String Value :=
  match arr[i]? with
  | some v => .ok v
  | none => .error lib.noItem

/-- `std::stod(std::string(v.as_string().c_str()))`, up to a null character. -/
def number (v : Value) : Except String DoubleValue := do
  let s ← lib.asString v
  lib.stod (String.ofList (s.toList.takeWhile (· ≠ '\x00')))

def level (entry : Value) : Except String PriceLevel := do
  let arr ← lib.asArray entry
  let px ← lib.number (← lib.item arr 0)
  let qty ← lib.number (← lib.item arr 1)
  return ⟨px, qty⟩

end Libraries

/-- The arguments of `apply_deltas`. -/
structure Depth where
  bids : List PriceLevel
  asks : List PriceLevel
  updateId : Int
  deriving DecidableEq

/-- `handle_message` up to `apply_deltas`: all that can throw. -/
def decode (lib : Libraries) (payload : String) : Except String Depth := do
  let obj ← lib.asObject (← lib.parse payload)
  let bids ← lib.asArray (← lib.member obj "b")
  let asks ← lib.asArray (← lib.member obj "a")
  let updateId ← lib.asInt64 (← lib.member obj "u")
  let bidLvls ← bids.mapM lib.level
  let askLvls ← asks.mapM lib.level
  return ⟨bidLvls, askLvls, updateId⟩

def marketEvent (symbol : String) (best : BestBidAsk) : MarketEvent DoubleValue where
  symbol := symbol
  bid := best.bid
  ask := best.ask
  size := best.bidQty.min best.askQty
  seq := best.updateId

/-- Where `run` stands: at its `while`, in `ws.read`, before `outbound_->push`, before the
push of `log`, at its end, or where its book is undefined. -/
inductive Pc where
  | test
  | reading
  | publishing (evt : MarketEvent DoubleValue)
  | logging (msg : String) (last : Bool)
  | finished
  | undefined

structure Connector where
  symbol : String
  book : OrderBook := {}
  outbound : MarketQueue DoubleValue
  logQueue : LogQueue
  running : Bool := true
  pc : Pc

/-- The next step of the connector, of a thread that empties a queue, or of `main`. -/
inductive Action where
  | again
  | read (payload : String)
  | readFails (what : String)
  | publish
  | log (now : Int)
  | popMarket
  | popLog
  | stop

inductive Event where
  | read (payload : String)
  | offered (evt : MarketEvent DoubleValue) (taken : Bool)
  | popped (evt : MarketEvent DoubleValue)
  | logged (msg : String) (taken : Bool)
  | drained (msg : String)
  | disconnected (what : String)
  deriving DecidableEq

/-- `handle_message` up to its next push. -/
def handleMessage (lib : Libraries) (s : Connector) (payload : String) : Connector :=
  match decode lib payload with
  | .error what => { s with pc := .logging ("parse error: " ++ what) false }
  | .ok depth =>
      match s.book.applyDeltas depth.bids depth.asks depth.updateId with
      | none => { s with pc := .undefined }
      | some book =>
          match book.best with
          | none => { s with book := book, pc := .test }
          | some best => { s with book := book, pc := .publishing (marketEvent s.symbol best) }

def step (lib : Libraries) (s : Connector) : Action → Option (Connector × List Event)
  | .again =>
      match s.pc with
      | .test => some ({ s with pc := if s.running then .reading else .finished }, [])
      | _ => none
  | .read payload =>
      match s.pc with
      | .reading => some (handleMessage lib s payload, [.read payload])
      | _ => none
  | .readFails what =>
      match s.pc with
      | .reading =>
          some ({ s with pc := .logging ("binance error: " ++ what) true }, [.disconnected what])
      | _ => none
  | .publish =>
      match s.pc with
      | .publishing evt =>
          match SpscQueue.push s.outbound evt with
          | (outbound, true) =>
              some ({ s with outbound := outbound, pc := .test }, [.offered evt true])
          | (outbound, false) =>
              some ({ s with
                outbound := outbound
                pc := .logging ("drop market evt seq=" ++ toString evt.seq) false },
                [.offered evt false])
      | _ => none
  | .log now =>
      match s.pc with
      | .logging msg last =>
          let (queue, taken) := SpscQueue.push s.logQueue ⟨"binance", msg, now⟩
          some ({ s with logQueue := queue, pc := if last then .finished else .test },
            [.logged msg taken])
      | _ => none
  | .popMarket =>
      match SPSCRing.pop s.outbound with
      | (outbound, none) => some ({ s with outbound := outbound }, [])
      | (outbound, some evt) => some ({ s with outbound := outbound }, [.popped evt])
  | .popLog =>
      match SPSCRing.pop s.logQueue with
      | (queue, none) => some ({ s with logQueue := queue }, [])
      | (queue, some line) => some ({ s with logQueue := queue }, [.drained line.message])
  | .stop => some ({ s with running := false }, [])

def machine (lib : Libraries) : Machine Connector Action Event := ⟨step lib⟩

/-- Connected, and before the first line of the log. -/
def start (symbol : String) (slots : Fin (2 ^ 10) → MarketEvent DoubleValue)
    (logSlots : Fin (2 ^ 10) → LogEvent) : Connector where
  symbol := symbol.map Char.toLower
  outbound := .empty slots
  logQueue := .empty logSlots
  pc := .logging ("connected to /ws/" ++ symbol.map Char.toLower ++ "@depth5@100ms") false

/-! ## What an observer sees -/

/-- The messages read that `handle_message` accepts, oldest first. -/
def accepted (lib : Libraries) (trace : List Event) : List Depth :=
  trace.filterMap fun
    | .read payload => (decode lib payload).toOption
    | _ => none

/-- The events offered to the shard. -/
def offered (trace : List Event) : List (MarketEvent DoubleValue) :=
  trace.filterMap fun
    | .offered evt _ => some evt
    | _ => none

/-- The events of them that the queue took. -/
def published (trace : List Event) : List (MarketEvent DoubleValue) :=
  trace.filterMap fun
    | .offered evt true => some evt
    | _ => none

/-- The events that the shard has popped. -/
def popped (trace : List Event) : List (MarketEvent DoubleValue) :=
  trace.filterMap fun
    | .popped evt => some evt
    | _ => none

/-- The lines that `log` was called with, the ones its queue refused included. -/
def logged (trace : List Event) : List String :=
  trace.filterMap fun
    | .logged msg _ => some msg
    | _ => none

/-- The lines of them that the queue took. -/
def queued (trace : List Event) : List String :=
  trace.filterMap fun
    | .logged msg true => some msg
    | _ => none

/-- The lines that the logger has popped. -/
def drained (trace : List Event) : List String :=
  trace.filterMap fun
    | .drained msg => some msg
    | _ => none

end BinanceDepth

end CppCodes.Source.FrameWork
