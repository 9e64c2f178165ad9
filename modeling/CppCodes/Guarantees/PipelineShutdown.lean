import CppCodes.Library.SpawnJoin
import CppCodes.Guarantees.PipelineOrder

/-!
# How the pipeline shuts down

`main` stores `false` in `running` and joins the threads (frame_work/src/main.cpp:76-83). Each
thread finishes the iteration it is in. The queues are not emptied: what is in them then is
neither sent nor reported as dropped.
-/

set_option autoImplicit false

namespace CppCodes.Guarantees.PipelineShutdown

open CppCodes.Library
open CppCodes.Source.FrameWork CppCodes.Source.HftTest
open CppCodes.Guarantees.PipelineOrder

variable {c : Setup} {s u : Pipeline c.shards} {a : PipelineAction c.shards}
  {trace seen : List PipelineEvent}

/-! ## What is left of the iterations -/

def feedAhead : FeedPc → Nat
  | .test => 1
  | .symbols rest => 2 * rest.length + 2
  | .push _ rest => 2 * rest.length + 3
  | .stopped => 0

def strategyAhead : StrategyPc → Nat
  | .test => 1
  | .pop => 3
  | .push _ => 2
  | .stopped => 0

def omsAhead {n : Nat} : OmsPc n → Nat
  | .test => 1
  | .inputs rest => 2 * rest.length + 2
  | .push _ rest => 2 * rest.length + 3
  | .stopped => 0

def tradeAhead : TradePc → Nat
  | .test => 1
  | .pop => 2
  | .stopped => 0

/-- The steps of all threads up to the ends of their loops, when none tests `running` again. -/
def ahead (s : Pipeline c.shards) : Nat :=
  feedAhead s.feed + (∑ k, strategyAhead (s.shards k).pc) + omsAhead s.oms + tradeAhead s.trade

/-- The events that the round of the feed is still to generate. -/
def feedDue : FeedPc → Nat
  | .symbols rest => rest.length
  | .push _ rest => rest.length
  | _ => 0

/-- The orders that the iteration of `TradeIo::run` may still pop. -/
def tradeDue : TradePc → Nat
  | .pop => 1
  | _ => 0

/-- A step of a thread, not the one of `main`. -/
def ofThread {n : Nat} : PipelineAction n → Bool
  | .stop => false
  | _ => true

/-- A step of a thread behind the store of `main`. -/
structure Closing (s u : Pipeline c.shards) (seen : List PipelineEvent) : Prop where
  running : u.running = false
  generated : feedDue u.feed + (generated seen).length = feedDue s.feed
  popped : tradeDue u.trade + (popped seen).length ≤ tradeDue s.trade
  seqs : ∀ sym, u.seqs sym + feedDue u.feed ≤ s.seqs sym + feedDue s.feed
  ahead : ahead u < ahead s

theorem sum_setShard (k : Fin c.shards) (shard : Shard) :
    (∑ j, strategyAhead (Function.update s.shards k shard j).pc) + strategyAhead (s.shards k).pc =
      (∑ j, strategyAhead (s.shards j).pc) + strategyAhead shard.pc :=
  Workers.sum_update (fun _ shard => strategyAhead shard.pc) s.shards k shard

/-- The queues do not matter. -/
theorem sum_queues {k : Fin c.shards} (shard : Shard) (h : shard.pc = (s.shards k).pc) :
    (∑ j, strategyAhead (Function.update s.shards k shard j).pc) = ∑ j, strategyAhead (s.shards j).pc := by
  have hsum := sum_setShard (s := s) k shard
  rw [h] at hsum
  exact Nat.add_right_cancel hsum

theorem closing_feed (hstop : s.running = false) (h : Pipeline.FeedEffect s u seen) :
    Closing s u seen := by
  cases h with
  | tested before after =>
    subst after
    refine ⟨hstop, ?_, le_rfl, ?_, ?_⟩
    · simp [PipelineOrder.generated, hstop, before, feedDue]
    · simp [hstop, before, feedDue]
    · simp [PipelineShutdown.ahead, hstop, before, feedAhead]
  | turned before after =>
    subst after
    refine ⟨hstop, ?_, le_rfl, ?_, ?_⟩
    · simp [PipelineOrder.generated, before, feedDue]
    · simp [before, feedDue]
    · simp [PipelineShutdown.ahead, before, feedAhead]
  | generated sym rest evt before symbol seq after =>
    subst after
    refine ⟨hstop, ?_, le_rfl, fun other => ?_, ?_⟩
    · simp [PipelineOrder.generated, before, feedDue]
    · by_cases hsym : other = sym
      · subst hsym
        simp [before, feedDue]
        omega
      · simp [before, feedDue, hsym]
    · simp [PipelineShutdown.ahead, before, feedAhead]
      omega
  | pushed evt rest queue before contents after =>
    subst after
    have hsum := @sum_queues c s (c.shardForSymbol evt.symbol)
      ⟨queue, (s.shards (c.shardForSymbol evt.symbol)).outbound,
        (s.shards (c.shardForSymbol evt.symbol)).pc⟩ rfl
    refine ⟨hstop, ?_, le_rfl, ?_, ?_⟩
    · simp [PipelineOrder.generated, before, feedDue]
    · simp [before, feedDue, Pipeline.setShard]
    · simp only [PipelineShutdown.ahead, before, feedAhead, Pipeline.setShard]
      omega
  | dropped evt rest queue before contents after =>
    subst after
    have hsum := @sum_queues c s (c.shardForSymbol evt.symbol)
      ⟨queue, (s.shards (c.shardForSymbol evt.symbol)).outbound,
        (s.shards (c.shardForSymbol evt.symbol)).pc⟩ rfl
    refine ⟨hstop, ?_, le_rfl, ?_, ?_⟩
    · simp [PipelineOrder.generated, before, feedDue]
    · simp [before, feedDue, Pipeline.setShard]
    · simp only [PipelineShutdown.ahead, before, feedAhead, Pipeline.setShard]
      omega

theorem closing_strategy {k : Fin c.shards} (hstop : s.running = false)
    (h : Pipeline.StrategyEffect s u k seen) : Closing s u seen := by
  have hsame : ∀ {shard : Shard}, strategyAhead shard.pc < strategyAhead (s.shards k).pc →
      generated seen = [] → popped seen = [] → Closing s (s.setShard k shard) seen := by
    intro shard hless hgenerated hpopped
    have hsum := @sum_setShard c s k shard
    refine ⟨hstop, ?_, ?_, fun _ => le_rfl, ?_⟩
    · rw [hgenerated]
      rfl
    · rw [hpopped]
      exact le_rfl
    · simp only [PipelineShutdown.ahead, Pipeline.setShard]
      omega
  cases h with
  | tested before after =>
    subst after
    exact hsame (by simp [before, hstop, strategyAhead]) rfl rfl
  | empty queue before contents after =>
    subst after
    exact hsame (by simp [before, strategyAhead]) rfl rfl
  | popped evt queue before contents after =>
    subst after
    exact hsame (by simp [before, strategyAhead]) rfl rfl
  | pushed d queue before contents after =>
    subst after
    exact hsame (by simp [before, strategyAhead]) rfl rfl
  | dropped d queue before contents after =>
    subst after
    exact hsame (by simp [before, strategyAhead]) rfl rfl

theorem closing_oms (hstop : s.running = false) (h : Pipeline.OmsEffect s u seen) : Closing s u seen := by
  -- a pop changes one queue of a shard, and not where the shard stands
  have hpop : ∀ {k : Fin c.shards} {queue : StrategyQueue} {pc : OmsPc c.shards}, omsAhead pc < omsAhead s.oms →
      generated seen = [] → popped seen = [] →
      Closing s { s.setShard k { s.shards k with outbound := queue } with oms := pc } seen := by
    intro k queue pc hless hgenerated hpopped
    have hsum := @sum_queues c s k ⟨(s.shards k).inbound, queue, (s.shards k).pc⟩ rfl
    refine ⟨hstop, ?_, ?_, fun _ => le_rfl, ?_⟩
    · rw [hgenerated]
      rfl
    · rw [hpopped]
      exact le_rfl
    · simp only [PipelineShutdown.ahead, Pipeline.setShard]
      omega
  cases h with
  | tested before after =>
    subst after
    refine ⟨hstop, rfl, le_rfl, fun _ => le_rfl, ?_⟩
    simp [PipelineShutdown.ahead, hstop, before, omsAhead]
  | turned before after =>
    subst after
    refine ⟨hstop, rfl, le_rfl, fun _ => le_rfl, ?_⟩
    simp [PipelineShutdown.ahead, before, omsAhead]
  | empty k rest queue before contents after =>
    subst after
    exact hpop (by simp [before, omsAhead]) rfl rfl
  | passed k rest d queue before contents risk after =>
    subst after
    exact hpop (by simp [before, omsAhead]; omega) rfl rfl
  | rejected k rest d queue before contents after =>
    subst after
    exact hpop (by simp [before, omsAhead]) rfl rfl
  | pushed cmd rest queue before contents after =>
    subst after
    refine ⟨hstop, rfl, le_rfl, fun _ => le_rfl, ?_⟩
    simp [PipelineShutdown.ahead, before, omsAhead]
  | dropped cmd rest queue before contents after =>
    subst after
    refine ⟨hstop, rfl, le_rfl, fun _ => le_rfl, ?_⟩
    simp [PipelineShutdown.ahead, before, omsAhead]

theorem closing_trade (hstop : s.running = false) (h : Pipeline.tradeStep c s = some (u, seen)) :
    Closing s u seen := by
  cases hpc : s.trade with
  | test =>
    simp only [Pipeline.tradeStep, hpc, hstop, Option.some.injEq, Prod.mk.injEq] at h
    obtain ⟨rfl, rfl⟩ := h
    refine ⟨rfl, rfl, Nat.zero_le _, fun _ => le_rfl, ?_⟩
    simp [PipelineShutdown.ahead, hpc, tradeAhead]
  | pop =>
    simp only [Pipeline.tradeStep, hpc] at h
    split at h
    · cases h
      refine ⟨hstop, rfl, Nat.zero_le _, fun _ => le_rfl, ?_⟩
      simp [PipelineShutdown.ahead, hpc, tradeAhead]
    · cases h
      refine ⟨hstop, rfl, ?_, fun _ => le_rfl, ?_⟩
      · rw [hpc]
        exact le_rfl
      · simp [PipelineShutdown.ahead, hpc, tradeAhead]
  | stopped =>
    simp only [Pipeline.tradeStep, hpc] at h
    cases h

theorem closing_step (hstop : s.running = false) (hthread : ofThread a = true)
    (h : (Pipeline.machine c).step s a = some (u, seen)) : Closing s u seen := by
  cases a with
  | feed x y => exact closing_feed hstop (Pipeline.feedStep_effect h)
  | strategy k => exact closing_strategy hstop (Pipeline.strategyStep_effect h)
  | oms => exact closing_oms hstop (Pipeline.omsStep_effect h)
  | trade => exact closing_trade hstop h
  | stop => cases hthread

/-- A second store changes nothing. -/
theorem stop_again (hstop : s.running = false) (hmain : ofThread a = false)
    (h : (Pipeline.machine c).step s a = some (u, seen)) : u = s ∧ seen = [] := by
  cases a with
  | stop =>
    cases h
    obtain ⟨running, seqs, feed, shards, oms, orders, trade⟩ := s
    cases hstop
    exact ⟨rfl, rfl⟩
  | _ => cases hmain

variable {more : List (PipelineAction c.shards)} {later : List PipelineEvent}

/-- What the steps behind the store come to. -/
structure Closed (s u : Pipeline c.shards) (more : List (PipelineAction c.shards))
    (later : List PipelineEvent) : Prop where
  running : u.running = false
  generated : feedDue u.feed + (generated later).length = feedDue s.feed
  popped : tradeDue u.trade + (popped later).length ≤ tradeDue s.trade
  seqs : ∀ sym, u.seqs sym + feedDue u.feed ≤ s.seqs sym + feedDue s.feed
  ahead : ahead u + more.countP ofThread ≤ ahead s

theorem closed_run (hstop : s.running = false) (run : (Pipeline.machine c).Run s more u later) :
    Closed s u more later := by
  induction more generalizing s later with
  | nil =>
    obtain ⟨rfl, rfl⟩ := Machine.run_nil_iff.mp run
    exact ⟨hstop, rfl, le_rfl, fun _ => le_rfl, le_rfl⟩
  | cons a rest ih =>
    obtain ⟨t, seen, after, hstep, hrest, rfl⟩ := Machine.run_cons_iff.mp run
    cases hthread : ofThread a with
    | true =>
      have hnow := closing_step hstop hthread hstep
      obtain ⟨hrunning, hgenerated, hpopped, hseqs, hahead⟩ := ih hnow.running hrest
      refine ⟨hrunning, ?_, ?_, fun sym => (hseqs sym).trans (hnow.seqs sym), ?_⟩
      · have hone := hnow.generated
        simp only [PipelineOrder.generated, List.filterMap_append, List.length_append] at hgenerated hone ⊢
        omega
      · have hone := hnow.popped
        simp only [PipelineOrder.popped, List.filterMap_append, List.length_append] at hpopped hone ⊢
        omega
      · have hone := hnow.ahead
        rw [List.countP_cons_of_pos hthread]
        omega
    | false =>
      obtain ⟨rfl, rfl⟩ := stop_again hstop hthread hstep
      obtain ⟨hrunning, hgenerated, hpopped, hseqs, hahead⟩ := ih hstop hrest
      refine ⟨hrunning, hgenerated, hpopped, hseqs, ?_⟩
      rw [List.countP_cons_of_neg (by simp [hthread])]
      exact hahead

/-! ## The joins -/

/-- All threads have left their loops. -/
structure Joined (s : Pipeline c.shards) : Prop where
  feed : s.feed = .stopped
  shards : ∀ k, (s.shards k).pc = .stopped
  oms : s.oms = .stopped
  trade : s.trade = .stopped

theorem feed_goes (hroom : ∀ sym, s.seqs sym + feedDue s.feed < 2 ^ 63) :
    s.feed = .stopped ∨ ((Pipeline.machine c).step s (.feed 0 0)).isSome = true := by
  cases hpc : s.feed with
  | test => exact .inr (by simp [Pipeline.machine, Pipeline.feedStep, hpc])
  | symbols rest =>
    cases rest with
    | nil => exact .inr (by simp [Pipeline.machine, Pipeline.feedStep, hpc])
    | cons sym rest =>
      have hfits := hroom sym
      rw [hpc, feedDue, List.length_cons] at hfits
      have hnext : s.seqs sym + 1 < 2 ^ 63 := by
        push_cast at hfits
        omega
      exact .inr (by simp only [Pipeline.machine, Pipeline.feedStep, hpc, if_pos hnext, Option.isSome_some])
  | push evt rest => exact .inr (by simp [Pipeline.machine, Pipeline.feedStep, hpc])
  | stopped => exact .inl rfl

theorem strategy_goes (k : Fin c.shards) :
    (s.shards k).pc = .stopped ∨ ((Pipeline.machine c).step s (.strategy k)).isSome = true := by
  cases hpc : (s.shards k).pc with
  | test => exact .inr (by simp [Pipeline.machine, Pipeline.strategyStep, hpc])
  | pop =>
    refine .inr ?_
    obtain ⟨queue, ⟨hpop, -, -⟩ | ⟨evt, hpop, -⟩⟩ := SpscQueue.pop_cases (s.shards k).inbound
    · simp [Pipeline.machine, Pipeline.strategyStep, hpc, hpop]
    · simp [Pipeline.machine, Pipeline.strategyStep, hpc, hpop]
  | push d => exact .inr (by simp [Pipeline.machine, Pipeline.strategyStep, hpc])
  | stopped => exact .inl rfl

theorem oms_goes : s.oms = .stopped ∨ ((Pipeline.machine c).step s .oms).isSome = true := by
  cases hpc : s.oms with
  | test => exact .inr (by simp [Pipeline.machine, Pipeline.omsStep, hpc])
  | inputs rest =>
    refine .inr ?_
    cases rest with
    | nil => simp [Pipeline.machine, Pipeline.omsStep, hpc]
    | cons k rest =>
      obtain ⟨queue, ⟨hpop, -, -⟩ | ⟨d, hpop, -⟩⟩ := SpscQueue.pop_cases (s.shards k).outbound
      · simp [Pipeline.machine, Pipeline.omsStep, hpc, hpop]
      · simp only [Pipeline.machine, Pipeline.omsStep, hpc, hpop]
        split
        · rfl
        · rfl
  | push cmd rest => exact .inr (by simp [Pipeline.machine, Pipeline.omsStep, hpc])
  | stopped => exact .inl rfl

theorem trade_goes : s.trade = .stopped ∨ ((Pipeline.machine c).step s .trade).isSome = true := by
  cases hpc : s.trade with
  | test => exact .inr (by simp [Pipeline.machine, Pipeline.tradeStep, hpc])
  | pop =>
    refine .inr ?_
    obtain ⟨queue, ⟨hpop, -, -⟩ | ⟨cmd, hpop, -⟩⟩ := SpscQueue.pop_cases s.orders
    · simp [Pipeline.machine, Pipeline.tradeStep, hpc, hpop]
    · simp [Pipeline.machine, Pipeline.tradeStep, hpc, hpop]
  | stopped => exact .inl rfl

theorem exists_step (hroom : ∀ sym, s.seqs sym + feedDue s.feed < 2 ^ 63) (hgoing : ¬ Joined s) :
    ∃ a, ofThread a = true ∧ ((Pipeline.machine c).step s a).isSome = true := by
  by_contra hnone
  have hstuck : ∀ {a}, ofThread a = true → ¬ ((Pipeline.machine c).step s a).isSome = true :=
    fun hthread hsome => hnone ⟨_, hthread, hsome⟩
  apply hgoing
  constructor
  · exact (feed_goes hroom).resolve_right (hstuck rfl)
  · intro k
    exact (strategy_goes k).resolve_right (hstuck rfl)
  · exact oms_goes.resolve_right (hstuck rfl)
  · exact trade_goes.resolve_right (hstuck rfl)

theorem run_joins (hstop : s.running = false)
    (hroom : ∀ sym, s.seqs sym + feedDue s.feed < 2 ^ 63) :
    ∃ more u later, (Pipeline.machine c).Run s more u later ∧ Joined u := by
  induction hahead : ahead s using Nat.strong_induction_on generalizing s with
  | _ left ih =>
    by_cases hjoined : Joined s
    · exact ⟨[], s, [], Machine.Run.nil s, hjoined⟩
    · obtain ⟨a, hthread, hsome⟩ := exists_step hroom hjoined
      obtain ⟨⟨t, seen⟩, hstep⟩ := Option.isSome_iff_exists.mp hsome
      have hnow := closing_step hstop hthread hstep
      have hless := hnow.ahead
      obtain ⟨more, u, later, hrun, hend⟩ := ih (ahead t) (by omega) hnow.running
        (fun sym => (hnow.seqs sym).trans_lt (hroom sym)) rfl
      exact ⟨a :: more, u, seen ++ later, Machine.Run.cons hstep hrun, hend⟩

/-- Nothing happens behind the joins. -/
theorem run_joined (hstop : s.running = false) (hjoined : Joined s)
    (run : (Pipeline.machine c).Run s more u later) : u = s ∧ later = [] := by
  induction more generalizing later with
  | nil => exact Machine.run_nil_iff.mp run
  | cons a rest ih =>
    obtain ⟨t, seen, after, hstep, hrest, rfl⟩ := Machine.run_cons_iff.mp run
    cases a with
    | feed x y =>
      simp only [Pipeline.machine, Pipeline.feedStep, hjoined.feed] at hstep
      cases hstep
    | strategy k =>
      simp only [Pipeline.machine, Pipeline.strategyStep, hjoined.shards k] at hstep
      cases hstep
    | oms =>
      simp only [Pipeline.machine, Pipeline.omsStep, hjoined.oms] at hstep
      cases hstep
    | trade =>
      simp only [Pipeline.machine, Pipeline.tradeStep, hjoined.trade] at hstep
      cases hstep
    | stop =>
      obtain ⟨rfl, rfl⟩ := stop_again hstop rfl hstep
      exact ih hrest

/-! ## What is lost -/

def omsDue {n : Nat} : OmsPc n → Nat
  | .inputs rest => rest.length
  | .push _ rest => rest.length
  | _ => 0

/-- No round is longer than its list. -/
structure Sized (s : Pipeline c.shards) : Prop where
  feed : feedDue s.feed ≤ c.symbols.length
  oms : omsDue s.oms ≤ c.shards

theorem Sized.step (h : Sized s) (hstep : (Pipeline.machine c).step s a = some (u, seen)) : Sized u := by
  have hfeed := h.feed
  have homs := h.oms
  cases a with
  | feed x y =>
    cases Pipeline.feedStep_effect hstep with
    | tested before after =>
      subst after
      refine ⟨?_, homs⟩
      cases s.running
      · exact Nat.zero_le _
      · exact le_rfl
    | turned before after =>
      subst after
      exact ⟨Nat.zero_le _, homs⟩
    | generated sym rest evt before symbol seq after =>
      subst after
      rw [before, feedDue, List.length_cons] at hfeed
      exact ⟨Nat.le_of_succ_le hfeed, homs⟩
    | pushed evt rest queue before contents after =>
      subst after
      rw [before] at hfeed
      exact ⟨hfeed, homs⟩
    | dropped evt rest queue before contents after =>
      subst after
      rw [before] at hfeed
      exact ⟨hfeed, homs⟩
  | strategy k =>
    cases Pipeline.strategyStep_effect hstep with
    | tested before after => exact after ▸ ⟨hfeed, homs⟩
    | empty queue before contents after => exact after ▸ ⟨hfeed, homs⟩
    | popped evt queue before contents after => exact after ▸ ⟨hfeed, homs⟩
    | pushed d queue before contents after => exact after ▸ ⟨hfeed, homs⟩
    | dropped d queue before contents after => exact after ▸ ⟨hfeed, homs⟩
  | oms =>
    cases Pipeline.omsStep_effect hstep with
    | tested before after =>
      subst after
      refine ⟨hfeed, ?_⟩
      cases s.running
      · exact Nat.zero_le _
      · simp [omsDue]
    | turned before after =>
      subst after
      exact ⟨hfeed, Nat.zero_le _⟩
    | empty k rest queue before contents after =>
      subst after
      rw [before, omsDue, List.length_cons] at homs
      exact ⟨hfeed, Nat.le_of_succ_le homs⟩
    | passed k rest d queue before contents risk after =>
      subst after
      rw [before, omsDue, List.length_cons] at homs
      exact ⟨hfeed, Nat.le_of_succ_le homs⟩
    | rejected k rest d queue before contents after =>
      subst after
      rw [before, omsDue, List.length_cons] at homs
      exact ⟨hfeed, Nat.le_of_succ_le homs⟩
    | pushed cmd rest queue before contents after =>
      subst after
      rw [before] at homs
      exact ⟨hfeed, homs⟩
    | dropped cmd rest queue before contents after =>
      subst after
      rw [before] at homs
      exact ⟨hfeed, homs⟩
  | trade =>
    cases Pipeline.tradeStep_effect hstep with
    | tested after => exact after ▸ ⟨hfeed, homs⟩
    | empty queue contents after => exact after ▸ ⟨hfeed, homs⟩
    | popped cmd queue contents after => exact after ▸ ⟨hfeed, homs⟩
  | stop =>
    cases hstep
    exact ⟨hfeed, homs⟩

theorem ahead_le (h : Sized s) : ahead s ≤ 2 * c.symbols.length + 5 * c.shards + 8 := by
  have hfeed : feedAhead s.feed ≤ 2 * feedDue s.feed + 3 := by
    cases s.feed <;> simp [feedAhead, feedDue]
  have homs : omsAhead s.oms ≤ 2 * omsDue s.oms + 3 := by
    cases s.oms <;> simp [omsAhead, omsDue]
  have htrade : tradeAhead s.trade ≤ 2 := by
    cases s.trade <;> simp [tradeAhead]
  have hshards : (∑ k, strategyAhead (s.shards k).pc) ≤ 3 * c.shards := by
    have hsum := Finset.sum_le_card_nsmul Finset.univ (fun k => strategyAhead (s.shards k).pc) 3 (by
      intro k _
      cases (s.shards k).pc <;> simp [strategyAhead])
    simpa [mul_comm] using hsum
  have hround := h.feed
  have hinputs := h.oms
  unfold ahead
  omega

theorem tradeDue_le : tradeDue s.trade ≤ 1 := by
  cases s.trade <;> simp [tradeDue]

/-- In the queues. -/
def queued (s : Pipeline c.shards) : List Tag :=
  s.orders.contents.map commandTag ++ (List.finRange c.shards).flatMap fun k =>
    (s.shards k).outbound.contents.map decisionTag ++ (s.shards k).inbound.contents.map eventTag

theorem inFlight_joined (h : Joined s) : inFlight s = queued s := by
  have hlanes : ∀ k, lane (s.shards k) =
      (s.shards k).outbound.contents.map decisionTag ++ (s.shards k).inbound.contents.map eventTag := by
    intro k
    rw [lane, h.shards k]
    rfl
  simp only [inFlight, queued, h.oms, h.feed, omsHeld, feedHeld, hlanes, List.nil_append, List.append_nil]

theorem run_conserved {actions : List (PipelineAction c.shards)}
    (run : (Pipeline.machine c).Run (Pipeline.start c) actions s trace) (sym : String) :
    (seqsOf sym ((generated trace).map eventTag)).Perm
      (seqsOf sym ((popped trace).map commandTag) ++ seqsOf sym (inFlight s) ++
        seqsOf sym (dropped trace) ++ seqsOf sym ((rejected trace).map decisionTag)) := by
  obtain ⟨hsharded, hkept⟩ := run_lanes run
  have hperm := (hkept sym).conserved
  rw [issuedOf_view, deliveredOf_view] at hperm
  rw [inFlight_path hsharded, List.append_assoc _ (seqsOf sym (dropped trace))]
  exact hperm.trans ((lostOf_view sym trace).append_left _)

/-- What this file proves of a state behind the store and the run that led to it. -/
structure ShutDown (s : Pipeline c.shards) (trace : List PipelineEvent) : Prop where
  /-- The threads take a bounded number of steps. -/
  steps : ∀ more u later, (Pipeline.machine c).Run s more u later →
    more.countP ofThread ≤ 2 * c.symbols.length + 5 * c.shards + 8
  few : ∀ more u later, (Pipeline.machine c).Run s more u later →
    (generated later).length ≤ c.symbols.length ∧ (popped later).length ≤ 1
  /-- No thread waits for another one, unless a number overflows. -/
  joins : (∀ sym, s.seqs sym + c.symbols.length < 2 ^ 63) →
    ∃ more u later, (Pipeline.machine c).Run s more u later ∧ Joined u
  /-- Behind the joins every event is popped, dropped, rejected or left in a queue for ever. -/
  left : ∀ more u later, (Pipeline.machine c).Run s more u later → Joined u →
    (∀ sym, (seqsOf sym ((generated (trace ++ later)).map eventTag)).Perm
      (seqsOf sym ((popped (trace ++ later)).map commandTag) ++ seqsOf sym (queued u) ++
        seqsOf sym (dropped (trace ++ later)) ++
        seqsOf sym ((rejected (trace ++ later)).map decisionTag))) ∧
    ∀ further v after, (Pipeline.machine c).Run u further v after → v = u ∧ after = []

theorem pipeline_shuts_down (c : Setup) (s : Pipeline c.shards)
    (actions : List (PipelineAction c.shards)) (trace : List PipelineEvent)
    (h : (Pipeline.machine c).Run (Pipeline.start c) actions s trace) (hstop : s.running = false) :
    ShutDown s trace := by
  have hsized : Sized s := h.invariant (I := fun s _ => Sized s) ⟨Nat.zero_le _, Nat.zero_le _⟩
    fun hI hstep => hI.step hstep
  refine ⟨fun more u later run => ?_, fun more u later run => ?_, fun hroom => ?_,
    fun more u later run hjoined => ⟨fun sym => ?_, fun further v after hafter => ?_⟩⟩
  · have hahead := (closed_run hstop run).ahead
    have hbound := ahead_le hsized
    omega
  · obtain ⟨-, hgenerated, hpopped, -, -⟩ := closed_run hstop run
    have hfeed := hsized.feed
    have htrade := @tradeDue_le c s
    constructor <;> omega
  · apply run_joins hstop
    intro sym
    have hfits := hroom sym
    have hfeed := hsized.feed
    omega
  · have hperm := run_conserved (h.append run) sym
    rwa [inFlight_joined hjoined] at hperm
  · exact run_joined (closed_run hstop run).running hjoined hafter

theorem single_shards_pos : 0 < single.shards := by decide

/-- An event is generated and popped by its shard; the store comes before the shard has pushed. -/
def stopAmid : List (PipelineAction single.shards) :=
  let shard : Fin single.shards := ⟨0, single_shards_pos⟩
  [.feed 0 0, .feed 0 0, .feed 0 0, .strategy shard, .strategy shard, .oms, .trade, .stop]

/-- Its decision is left in a queue. -/
def joinAll : List (PipelineAction single.shards) :=
  let shard : Fin single.shards := ⟨0, single_shards_pos⟩
  [.oms, .oms, .oms, .strategy shard, .strategy shard, .trade, .trade, .feed 0 0, .feed 0 0]

theorem pipeline_shuts_down_amid :
    ∃ s trace u later, (Pipeline.machine single).Run (Pipeline.start single) stopAmid s trace ∧
      (Pipeline.machine single).Run s joinAll u later ∧ queued u = [("BTCUSDT", 1)] ∧
      ShutDown s trace := by
  have hrun := (Pipeline.machine single).run_of_isSome (Pipeline.start single) stopAmid
    (by decide +kernel)
  exact ⟨_, _, _, _, hrun, (Pipeline.machine single).run_of_isSome _ joinAll (by decide +kernel),
    by decide +kernel, pipeline_shuts_down _ _ _ _ hrun (by decide +kernel)⟩

end CppCodes.Guarantees.PipelineShutdown
