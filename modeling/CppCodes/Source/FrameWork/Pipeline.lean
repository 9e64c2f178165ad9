import CppCodes.Source.FrameWork.SpscQueue
import Mathlib.Data.Rat.Defs
import Mathlib.Algebra.Order.Ring.Rat
import Mathlib.Data.List.FinRange

/-!
# The pipeline threads

Source: frame_work/src/feed_handler.cpp:18-39, strategy_shard.cpp:19-34,
oms_risk.cpp:17-43, trade_io.cpp:13-23, types.h:18-44, main.cpp:36-45. Each thread
loops while `running_` holds. A step of a thread goes up to its next push or pop,
which are uninterrupted, or loads `running_`. The price noise is an input of the feed's
step and a `double` is a rational number. Sleeping is left out, as are the log queues,
which no thread of the pipeline reads.
-/

set_option autoImplicit false

namespace CppCodes.Source.FrameWork

open CppCodes.Library CppCodes.Source.HftTest

/-- `F` is what a `double` is taken for. -/
structure MarketEvent (F : Type) where
  symbol : String
  bid : F
  ask : F
  size : F
  seq : Int
  deriving DecidableEq

structure StrategyDecision where
  symbol : String
  buy : Bool
  price : ℚ
  qty : ℚ
  seq : Int
  deriving DecidableEq

structure OrderCommand where
  symbol : String
  buy : Bool
  price : ℚ
  qty : ℚ
  seq : Int
  deriving DecidableEq

abbrev MarketQueue (F : Type) := SpscQueue (MarketEvent F) 10

abbrev StrategyQueue := SpscQueue StrategyDecision 10

abbrev OrderQueue := SpscQueue OrderCommand 10

/-- What the threads are constructed with: `symbols_`, the number of shard queues and
`std::hash<std::string>`. -/
structure Setup where
  symbols : List String
  shards : Nat
  hash : String → UInt64
  some_shard : 0 < shards

def Setup.shardForSymbol (c : Setup) (sym : String) : Fin c.shards :=
  ⟨(c.hash sym).toNat % c.shards, Nat.mod_lt _ c.some_shard⟩

def marketEvent (sym : String) (bidNoise askNoise : ℚ) (seq : Int) : MarketEvent ℚ :=
  ⟨sym, 100 + bidNoise, 1004 / 10 + askNoise, 5 / 10, seq⟩

def strategyDecision (evt : MarketEvent ℚ) : StrategyDecision :=
  let mid := (evt.bid + evt.ask) * (5 / 10)
  let buy := evt.seq % 2 = 0
  let px := if buy then mid - 5 / 100 else mid + 5 / 100
  ⟨evt.symbol, buy, px, evt.size * (8 / 10), evt.seq⟩

def riskPasses (d : StrategyDecision) : Bool := d.qty ≤ 15 / 10

def orderCommand (d : StrategyDecision) : OrderCommand := ⟨d.symbol, d.buy, d.price, d.qty, d.seq⟩

/-- Where `FeedHandler::run` stands: at the `while`, before a round of the `for`, or
with the event to be pushed. -/
inductive FeedPc where
  | test
  | symbols (rest : List String)
  | push (evt : MarketEvent ℚ) (rest : List String)
  | stopped

/-- Where `StrategyShard::run` stands. -/
inductive StrategyPc where
  | test
  | pop
  | push (decision : StrategyDecision)
  | stopped

/-- Where `OmsRisk::run` stands; `progressed` decides about sleeping only. -/
inductive OmsPc (n : Nat) where
  | test
  | inputs (rest : List (Fin n))
  | push (cmd : OrderCommand) (rest : List (Fin n))
  | stopped

/-- Where `TradeIo::run` stands. -/
inductive TradePc where
  | test
  | pop
  | stopped

/-- A `StrategyShard` with its two queues. -/
structure Shard where
  inbound : MarketQueue ℚ
  outbound : StrategyQueue
  pc : StrategyPc

structure Pipeline (n : Nat) where
  running : Bool
  seqs : String → Int
  feed : FeedPc
  shards : Fin n → Shard
  oms : OmsPc n
  orders : OrderQueue
  trade : TradePc

/-- The next step of a thread, or of `main`, which stores `false` in `running`. -/
inductive PipelineAction (n : Nat) where
  | feed (bidNoise askNoise : ℚ)
  | strategy (k : Fin n)
  | oms
  | trade
  | stop

inductive PipelineEvent where
  | generated (evt : MarketEvent ℚ)
  | droppedEvent (evt : MarketEvent ℚ)
  | droppedDecision (decision : StrategyDecision)
  | rejected (decision : StrategyDecision)
  | droppedOrder (cmd : OrderCommand)
  | popped (cmd : OrderCommand)

namespace Pipeline

variable (c : Setup) (s : Pipeline c.shards)

/-- `FeedHandler::run`. There is no step where `++seq` would overflow, which has no
defined result. -/
def feedStep (bidNoise askNoise : ℚ) : Option (Pipeline c.shards × List PipelineEvent) :=
  match s.feed with
  | .test => some ({ s with feed := if s.running then .symbols c.symbols else .stopped }, [])
  | .symbols [] => some ({ s with feed := .test }, [])
  | .symbols (sym :: rest) =>
      if s.seqs sym + 1 < 2 ^ 63 then
        let evt := marketEvent sym bidNoise askNoise (s.seqs sym + 1)
        some ({ s with
          seqs := Function.update s.seqs sym (s.seqs sym + 1)
          feed := .push evt rest }, [.generated evt])
      else none
  | .push evt rest =>
      let k := c.shardForSymbol evt.symbol
      let (queue, pushed) := SpscQueue.push (s.shards k).inbound evt
      some ({ s with
        shards := Function.update s.shards k { s.shards k with inbound := queue }
        feed := .symbols rest }, if pushed then [] else [.droppedEvent evt])
  | .stopped => none

/-- `StrategyShard::run`. -/
def strategyStep (k : Fin c.shards) : Option (Pipeline c.shards × List PipelineEvent) :=
  let shard := s.shards k
  match shard.pc with
  | .test =>
      some ({ s with
        shards := Function.update s.shards k
          { shard with pc := if s.running then .pop else .stopped } }, [])
  | .pop =>
      match SPSCRing.pop shard.inbound with
      | (queue, none) =>
          some ({ s with
            shards := Function.update s.shards k { shard with inbound := queue, pc := .test } }, [])
      | (queue, some evt) =>
          some ({ s with
            shards := Function.update s.shards k
              { shard with inbound := queue, pc := .push (strategyDecision evt) } }, [])
  | .push decision =>
      let (queue, pushed) := SpscQueue.push shard.outbound decision
      some ({ s with
        shards := Function.update s.shards k { shard with outbound := queue, pc := .test } },
        if pushed then [] else [.droppedDecision decision])
  | .stopped => none

/-- `OmsRisk::run`. -/
def omsStep : Option (Pipeline c.shards × List PipelineEvent) :=
  match s.oms with
  | .test =>
      some ({ s with oms := if s.running then .inputs (List.finRange c.shards) else .stopped }, [])
  | .inputs [] => some ({ s with oms := .test }, [])
  | .inputs (k :: rest) =>
      let shard := s.shards k
      match SPSCRing.pop shard.outbound with
      | (queue, none) =>
          some ({ s with
            shards := Function.update s.shards k { shard with outbound := queue }
            oms := .inputs rest }, [])
      | (queue, some d) =>
          let s := { s with shards := Function.update s.shards k { shard with outbound := queue } }
          if riskPasses d then some ({ s with oms := .push (orderCommand d) rest }, [])
          else some ({ s with oms := .inputs rest }, [.rejected d])
  | .push cmd rest =>
      let (queue, pushed) := SpscQueue.push s.orders cmd
      some ({ s with orders := queue, oms := .inputs rest },
        if pushed then [] else [.droppedOrder cmd])
  | .stopped => none

/-- `TradeIo::run`. -/
def tradeStep : Option (Pipeline c.shards × List PipelineEvent) :=
  match s.trade with
  | .test => some ({ s with trade := if s.running then .pop else .stopped }, [])
  | .pop =>
      match SPSCRing.pop s.orders with
      | (queue, none) => some ({ s with orders := queue, trade := .test }, [])
      | (queue, some cmd) => some ({ s with orders := queue, trade := .test }, [.popped cmd])
  | .stopped => none

/-- The threads of `main`, interleaved step by step. -/
def machine : Machine (Pipeline c.shards) (PipelineAction c.shards) PipelineEvent where
  step s
    | .feed bidNoise askNoise => feedStep c s bidNoise askNoise
    | .strategy k => strategyStep c s k
    | .oms => omsStep c s
    | .trade => tradeStep c s
    | .stop => some ({ s with running := false }, [])

/-- All threads before their first test, all queues empty. -/
def start : Pipeline c.shards where
  running := true
  seqs := fun _ => 0
  feed := .test
  shards := fun _ =>
    { inbound := SPSCRing.empty fun _ => ⟨"", 0, 0, 0, 0⟩
      outbound := SPSCRing.empty fun _ => ⟨"", false, 0, 0, 0⟩
      pc := .test }
  oms := .test
  orders := SPSCRing.empty fun _ => ⟨"", false, 0, 0, 0⟩
  trade := .test

/-! ## What a step does -/

variable {c} {s : Pipeline c.shards}

/-- A shard that the step of another thread or its own has changed. -/
def setShard (s : Pipeline c.shards) (k : Fin c.shards) (shard : Shard) : Pipeline c.shards :=
  { s with shards := Function.update s.shards k shard }

/-- The steps of `FeedHandler::run`, with the queue known by its contents. -/
inductive FeedEffect (s u : Pipeline c.shards) : List PipelineEvent → Prop where
  | tested (before : s.feed = .test)
      (after : u = { s with feed := if s.running then .symbols c.symbols else .stopped }) :
      FeedEffect s u []
  | turned (before : s.feed = .symbols []) (after : u = { s with feed := .test }) : FeedEffect s u []
  | generated (sym : String) (rest : List String) (evt : MarketEvent ℚ)
      (before : s.feed = .symbols (sym :: rest)) (symbol : evt.symbol = sym)
      (seq : evt.seq = s.seqs sym + 1)
      (after : u = { s with
        seqs := Function.update s.seqs sym (s.seqs sym + 1), feed := .push evt rest }) :
      FeedEffect s u [.generated evt]
  | pushed (evt : MarketEvent ℚ) (rest : List String) (queue : MarketQueue ℚ)
      (before : s.feed = .push evt rest)
      (contents : queue.contents =
        (s.shards (c.shardForSymbol evt.symbol)).inbound.contents ++ [evt])
      (after : u = { s.setShard (c.shardForSymbol evt.symbol)
        { s.shards (c.shardForSymbol evt.symbol) with inbound := queue } with
          feed := .symbols rest }) : FeedEffect s u []
  | dropped (evt : MarketEvent ℚ) (rest : List String) (queue : MarketQueue ℚ)
      (before : s.feed = .push evt rest)
      (contents : queue.contents = (s.shards (c.shardForSymbol evt.symbol)).inbound.contents)
      (after : u = { s.setShard (c.shardForSymbol evt.symbol)
        { s.shards (c.shardForSymbol evt.symbol) with inbound := queue } with
          feed := .symbols rest }) : FeedEffect s u [.droppedEvent evt]

theorem feedStep_effect {x y : ℚ} {u : Pipeline c.shards} {seen : List PipelineEvent}
    (h : feedStep c s x y = some (u, seen)) : FeedEffect s u seen := by
  cases hpc : s.feed with
  | test =>
    simp only [feedStep, hpc, Option.some.injEq, Prod.mk.injEq] at h
    obtain ⟨rfl, rfl⟩ := h
    exact .tested hpc rfl
  | symbols rest =>
    cases rest with
    | nil =>
      simp only [feedStep, hpc, Option.some.injEq, Prod.mk.injEq] at h
      obtain ⟨rfl, rfl⟩ := h
      exact .turned hpc rfl
    | cons sym rest =>
      simp only [feedStep, hpc] at h
      split at h
      · cases h
        exact .generated sym rest _ hpc rfl rfl rfl
      · cases h
  | push evt rest =>
    simp only [feedStep, hpc] at h
    obtain ⟨queue, ⟨hpush, hqueue⟩ | ⟨hpush, hqueue⟩⟩ :=
      SpscQueue.push_cases (s.shards (c.shardForSymbol evt.symbol)).inbound evt
    · simp only [hpush, Option.some.injEq, Prod.mk.injEq] at h
      obtain ⟨rfl, rfl⟩ := h
      exact .pushed evt rest queue hpc hqueue rfl
    · simp only [hpush, Option.some.injEq, Prod.mk.injEq] at h
      obtain ⟨rfl, rfl⟩ := h
      exact .dropped evt rest queue hpc hqueue rfl
  | stopped =>
    simp only [feedStep, hpc] at h
    cases h

/-- The steps of `StrategyShard::run`. -/
inductive StrategyEffect (s u : Pipeline c.shards) (k : Fin c.shards) :
    List PipelineEvent → Prop where
  | tested (before : (s.shards k).pc = .test)
      (after : u = s.setShard k
        { s.shards k with pc := if s.running then .pop else .stopped }) : StrategyEffect s u k []
  | empty (queue : MarketQueue ℚ) (before : (s.shards k).pc = .pop)
      (contents : queue.contents = (s.shards k).inbound.contents)
      (after : u = s.setShard k { s.shards k with inbound := queue, pc := .test }) :
      StrategyEffect s u k []
  | popped (evt : MarketEvent ℚ) (queue : MarketQueue ℚ) (before : (s.shards k).pc = .pop)
      (contents : (s.shards k).inbound.contents = evt :: queue.contents)
      (after : u = s.setShard k
        { s.shards k with inbound := queue, pc := .push (strategyDecision evt) }) :
      StrategyEffect s u k []
  | pushed (d : StrategyDecision) (queue : StrategyQueue) (before : (s.shards k).pc = .push d)
      (contents : queue.contents = (s.shards k).outbound.contents ++ [d])
      (after : u = s.setShard k { s.shards k with outbound := queue, pc := .test }) :
      StrategyEffect s u k []
  | dropped (d : StrategyDecision) (queue : StrategyQueue) (before : (s.shards k).pc = .push d)
      (contents : queue.contents = (s.shards k).outbound.contents)
      (after : u = s.setShard k { s.shards k with outbound := queue, pc := .test }) :
      StrategyEffect s u k [.droppedDecision d]

theorem strategyStep_effect {k : Fin c.shards} {u : Pipeline c.shards} {seen : List PipelineEvent}
    (h : strategyStep c s k = some (u, seen)) : StrategyEffect s u k seen := by
  cases hpc : (s.shards k).pc with
  | test =>
    simp only [strategyStep, hpc, Option.some.injEq, Prod.mk.injEq] at h
    obtain ⟨rfl, rfl⟩ := h
    exact .tested hpc rfl
  | pop =>
    simp only [strategyStep, hpc] at h
    obtain ⟨queue, ⟨hpop, hqueue, -⟩ | ⟨evt, hpop, hqueue⟩⟩ := SpscQueue.pop_cases (s.shards k).inbound
    · simp only [hpop, Option.some.injEq, Prod.mk.injEq] at h
      obtain ⟨rfl, rfl⟩ := h
      exact .empty queue hpc hqueue rfl
    · simp only [hpop, Option.some.injEq, Prod.mk.injEq] at h
      obtain ⟨rfl, rfl⟩ := h
      exact .popped evt queue hpc hqueue rfl
  | push d =>
    simp only [strategyStep, hpc] at h
    obtain ⟨queue, ⟨hpush, hqueue⟩ | ⟨hpush, hqueue⟩⟩ := SpscQueue.push_cases (s.shards k).outbound d
    · simp only [hpush, Option.some.injEq, Prod.mk.injEq] at h
      obtain ⟨rfl, rfl⟩ := h
      exact .pushed d queue hpc hqueue rfl
    · simp only [hpush, Option.some.injEq, Prod.mk.injEq] at h
      obtain ⟨rfl, rfl⟩ := h
      exact .dropped d queue hpc hqueue rfl
  | stopped =>
    simp only [strategyStep, hpc] at h
    cases h

/-- The steps of `OmsRisk::run`. -/
inductive OmsEffect (s u : Pipeline c.shards) : List PipelineEvent → Prop where
  | tested (before : s.oms = .test)
      (after : u = { s with
        oms := if s.running then .inputs (List.finRange c.shards) else .stopped }) :
      OmsEffect s u []
  | turned (before : s.oms = .inputs []) (after : u = { s with oms := .test }) : OmsEffect s u []
  | empty (k : Fin c.shards) (rest : List (Fin c.shards)) (queue : StrategyQueue)
      (before : s.oms = .inputs (k :: rest))
      (contents : queue.contents = (s.shards k).outbound.contents)
      (after : u = { s.setShard k { s.shards k with outbound := queue } with
        oms := .inputs rest }) : OmsEffect s u []
  | passed (k : Fin c.shards) (rest : List (Fin c.shards)) (d : StrategyDecision)
      (queue : StrategyQueue) (before : s.oms = .inputs (k :: rest))
      (contents : (s.shards k).outbound.contents = d :: queue.contents)
      (risk : riskPasses d = true)
      (after : u = { s.setShard k { s.shards k with outbound := queue } with
        oms := .push (orderCommand d) rest }) : OmsEffect s u []
  | rejected (k : Fin c.shards) (rest : List (Fin c.shards)) (d : StrategyDecision)
      (queue : StrategyQueue) (before : s.oms = .inputs (k :: rest))
      (contents : (s.shards k).outbound.contents = d :: queue.contents)
      (after : u = { s.setShard k { s.shards k with outbound := queue } with
        oms := .inputs rest }) : OmsEffect s u [.rejected d]
  | pushed (cmd : OrderCommand) (rest : List (Fin c.shards)) (queue : OrderQueue)
      (before : s.oms = .push cmd rest) (contents : queue.contents = s.orders.contents ++ [cmd])
      (after : u = { s with orders := queue, oms := .inputs rest }) : OmsEffect s u []
  | dropped (cmd : OrderCommand) (rest : List (Fin c.shards)) (queue : OrderQueue)
      (before : s.oms = .push cmd rest) (contents : queue.contents = s.orders.contents)
      (after : u = { s with orders := queue, oms := .inputs rest }) :
      OmsEffect s u [.droppedOrder cmd]

theorem omsStep_effect {u : Pipeline c.shards} {seen : List PipelineEvent}
    (h : omsStep c s = some (u, seen)) : OmsEffect s u seen := by
  cases hpc : s.oms with
  | test =>
    simp only [omsStep, hpc, Option.some.injEq, Prod.mk.injEq] at h
    obtain ⟨rfl, rfl⟩ := h
    exact .tested hpc rfl
  | inputs rest =>
    cases rest with
    | nil =>
      simp only [omsStep, hpc, Option.some.injEq, Prod.mk.injEq] at h
      obtain ⟨rfl, rfl⟩ := h
      exact .turned hpc rfl
    | cons k rest =>
      simp only [omsStep, hpc] at h
      obtain ⟨queue, ⟨hpop, hqueue, -⟩ | ⟨d, hpop, hqueue⟩⟩ :=
        SpscQueue.pop_cases (s.shards k).outbound
      · simp only [hpop, Option.some.injEq, Prod.mk.injEq] at h
        obtain ⟨rfl, rfl⟩ := h
        exact .empty k rest queue hpc hqueue rfl
      · simp only [hpop] at h
        split at h
        · next hrisk =>
          cases h
          exact .passed k rest d queue hpc hqueue hrisk rfl
        · cases h
          exact .rejected k rest d queue hpc hqueue rfl
  | push cmd rest =>
    simp only [omsStep, hpc] at h
    obtain ⟨queue, ⟨hpush, hqueue⟩ | ⟨hpush, hqueue⟩⟩ := SpscQueue.push_cases s.orders cmd
    · simp only [hpush, Option.some.injEq, Prod.mk.injEq] at h
      obtain ⟨rfl, rfl⟩ := h
      exact .pushed cmd rest queue hpc hqueue rfl
    · simp only [hpush, Option.some.injEq, Prod.mk.injEq] at h
      obtain ⟨rfl, rfl⟩ := h
      exact .dropped cmd rest queue hpc hqueue rfl
  | stopped =>
    simp only [omsStep, hpc] at h
    cases h

/-- The steps of `TradeIo::run`. -/
inductive TradeEffect (s u : Pipeline c.shards) : List PipelineEvent → Prop where
  | tested (after : u = { s with trade := if s.running then .pop else .stopped }) :
      TradeEffect s u []
  | empty (queue : OrderQueue) (contents : queue.contents = s.orders.contents)
      (after : u = { s with orders := queue, trade := .test }) : TradeEffect s u []
  | popped (cmd : OrderCommand) (queue : OrderQueue)
      (contents : s.orders.contents = cmd :: queue.contents)
      (after : u = { s with orders := queue, trade := .test }) : TradeEffect s u [.popped cmd]

theorem tradeStep_effect {u : Pipeline c.shards} {seen : List PipelineEvent}
    (h : tradeStep c s = some (u, seen)) : TradeEffect s u seen := by
  cases hpc : s.trade with
  | test =>
    simp only [tradeStep, hpc, Option.some.injEq, Prod.mk.injEq] at h
    obtain ⟨rfl, rfl⟩ := h
    exact .tested rfl
  | pop =>
    simp only [tradeStep, hpc] at h
    obtain ⟨queue, ⟨hpop, hqueue, -⟩ | ⟨cmd, hpop, hqueue⟩⟩ := SpscQueue.pop_cases s.orders
    · simp only [hpop, Option.some.injEq, Prod.mk.injEq] at h
      obtain ⟨rfl, rfl⟩ := h
      exact .empty queue hqueue rfl
    · simp only [hpop, Option.some.injEq, Prod.mk.injEq] at h
      obtain ⟨rfl, rfl⟩ := h
      exact .popped cmd queue hqueue rfl
  | stopped =>
    simp only [tradeStep, hpc] at h
    cases h

end Pipeline

end CppCodes.Source.FrameWork
