import CppCodes.Library.Lanes
import CppCodes.Source.FrameWork.Pipeline

/-!
# The pipeline neither reorders nor duplicates

What the stages and queues hold of one symbol lies on one path, since the symbol's
hash fixes the shard: the feed's event, the market queue, the shard's decision, the
strategy queue, the risk stage's command and the order queue. The path is a numbered
lane: the feed issues the next number, each stage moves the oldest one on or loses it,
and `TradeIo` takes the oldest one off (`step_simulated`).
-/

set_option autoImplicit false

namespace CppCodes.Guarantees.PipelineOrder

open CppCodes.Library CppCodes.Source.FrameWork CppCodes.Source.HftTest
open scoped List

/-- The symbol and the sequence number that events, decisions and commands share. -/
abbrev Tag := String × Int

def eventTag (evt : MarketEvent ℚ) : Tag := (evt.symbol, evt.seq)

def decisionTag (d : StrategyDecision) : Tag := (d.symbol, d.seq)

def commandTag (cmd : OrderCommand) : Tag := (cmd.symbol, cmd.seq)

/-- The sequence numbers of one symbol. -/
def seqsOf (sym : String) (tags : List Tag) : List Int :=
  tags.filterMap fun t => if t.1 = sym then some t.2 else none

section SeqsOf

variable {sym : String} {tags more : List Tag} {t : Tag}

@[simp] theorem seqsOf_nil : seqsOf sym [] = [] := rfl

@[simp] theorem seqsOf_append : seqsOf sym (tags ++ more) = seqsOf sym tags ++ seqsOf sym more :=
  List.filterMap_append

theorem seqsOf_cons : seqsOf sym (t :: tags) = seqsOf sym [t] ++ seqsOf sym tags := by
  rw [← seqsOf_append, List.singleton_append]

theorem seqsOf_self : seqsOf t.1 [t] = [t.2] := by
  simp [seqsOf]

theorem seqsOf_other (h : t.1 ≠ sym) : seqsOf sym [t] = [] := by
  simp [seqsOf, h]

theorem seqsOf_eq_nil (h : ∀ t ∈ tags, t.1 ≠ sym) : seqsOf sym tags = [] := by
  unfold seqsOf
  rw [List.filterMap_eq_nil_iff]
  intro t ht
  rw [if_neg (h t ht)]

theorem mem_seqsOf {n : Int} : n ∈ seqsOf sym tags ↔ (sym, n) ∈ tags := by
  unfold seqsOf
  rw [List.mem_filterMap]
  constructor
  · intro hparts
    obtain ⟨⟨sym', n'⟩, ht, hn⟩ := hparts
    split at hn
    · next h =>
      cases h
      cases hn
      exact ht
    · cases hn
  · exact fun h => ⟨(sym, n), h, if_pos rfl⟩

end SeqsOf

/-! ## What a run shows -/

def generated (trace : List PipelineEvent) : List (MarketEvent ℚ) :=
  trace.filterMap fun
    | .generated evt => some evt
    | _ => none

def popped (trace : List PipelineEvent) : List OrderCommand :=
  trace.filterMap fun
    | .popped cmd => some cmd
    | _ => none

def rejected (trace : List PipelineEvent) : List StrategyDecision :=
  trace.filterMap fun
    | .rejected d => some d
    | _ => none

/-- What a full queue did not take. -/
def dropped (trace : List PipelineEvent) : List Tag :=
  trace.filterMap fun
    | .droppedEvent evt => some (eventTag evt)
    | .droppedDecision d => some (decisionTag d)
    | .droppedOrder cmd => some (commandTag cmd)
    | _ => none

/-! ## What a state holds -/

def feedHeld : FeedPc → List Tag
  | .push evt _ => [eventTag evt]
  | _ => []

def strategyHeld : StrategyPc → List Tag
  | .push d => [decisionTag d]
  | _ => []

def omsHeld {n : Nat} : OmsPc n → List Tag
  | .push cmd _ => [commandTag cmd]
  | _ => []

/-- In a shard and its queues, oldest first. -/
def lane (shard : Shard) : List Tag :=
  shard.outbound.contents.map decisionTag ++
    (strategyHeld shard.pc ++ shard.inbound.contents.map eventTag)

variable {c : Setup}

/-- In the queues and stages. -/
def inFlight (s : Pipeline c.shards) : List Tag :=
  s.orders.contents.map commandTag ++
    (omsHeld s.oms ++ ((List.finRange c.shards).flatMap (fun k => lane (s.shards k)) ++ feedHeld s.feed))

/-- What this file proves of a state and the run that led to it. -/
structure InOrder (s : Pipeline c.shards) (trace : List PipelineEvent) : Prop where
  /-- A command belongs to exactly one event. -/
  origin : ∀ cmd ∈ popped trace,
    (generated trace).countP (fun evt => evt.symbol = cmd.symbol ∧ evt.seq = cmd.seq) = 1
  side : ∀ cmd ∈ popped trace, cmd.buy = true ↔ cmd.seq % 2 = 0
  increasing : ∀ sym, (seqsOf sym ((popped trace).map commandTag)).Pairwise (· < ·)
  risk : ∀ cmd ∈ popped trace, ∃ d, riskPasses d = true ∧ cmd = orderCommand d
  /-- Every event is accounted for once. -/
  conserved : ∀ sym, seqsOf sym ((generated trace).map eventTag) ~
    seqsOf sym ((popped trace).map commandTag) ++ seqsOf sym (inFlight s) ++
      seqsOf sym (dropped trace) ++ seqsOf sym ((rejected trace).map decisionTag)

/-! ## One symbol's path -/

/-- What is in flight of one symbol, oldest first. -/
def path (s : Pipeline c.shards) (sym : String) : List Int :=
  seqsOf sym (s.orders.contents.map commandTag) ++ (seqsOf sym (omsHeld s.oms) ++
    (seqsOf sym (lane (s.shards (c.shardForSymbol sym))) ++ seqsOf sym (feedHeld s.feed)))

/-- A shard holds symbols of its own. -/
def Sharded (shards : Fin c.shards → Shard) : Prop :=
  ∀ k, ∀ t ∈ lane (shards k), c.shardForSymbol t.1 = k

theorem Sharded.update {shards : Fin c.shards → Shard} (h : Sharded shards) {k : Fin c.shards}
    {shard : Shard} (own : ∀ t ∈ lane shard, c.shardForSymbol t.1 = k) :
    Sharded (Function.update shards k shard) := by
  intro j t ht
  by_cases hj : j = k
  · subst hj
    rw [Function.update_self] at ht
    exact own t ht
  · rw [Function.update_of_ne hj] at ht
    exact h j t ht

/-- Nothing of the symbol is in the other shards. -/
theorem inFlight_path {s : Pipeline c.shards} (h : Sharded s.shards) (sym : String) :
    seqsOf sym (inFlight s) = path s sym := by
  have hlanes : ∀ ks : List (Fin c.shards), ks.Nodup → c.shardForSymbol sym ∈ ks →
      seqsOf sym (ks.flatMap fun k => lane (s.shards k)) =
        seqsOf sym (lane (s.shards (c.shardForSymbol sym))) := by
    intro ks hnodup hmem
    obtain ⟨before, behind, rfl⟩ := List.append_of_mem hmem
    have hnot : ∀ k ∈ before ++ behind, k ≠ c.shardForSymbol sym := by
      intro k hk hsame
      obtain rfl := hsame
      have hperm := List.perm_middle.nodup_iff.mp hnodup
      exact (List.nodup_cons.mp hperm).1 hk
    have hnil : ∀ ks : List (Fin c.shards), (∀ k ∈ ks, k ≠ c.shardForSymbol sym) →
        seqsOf sym (ks.flatMap fun k => lane (s.shards k)) = [] := by
      intro ks hks
      apply seqsOf_eq_nil
      intro t ht hsame
      obtain rfl := hsame
      obtain ⟨k, hk, htk⟩ := List.mem_flatMap.mp ht
      exact hks k hk (h k t htk).symm
    rw [List.flatMap_append, List.flatMap_cons, seqsOf_append, seqsOf_append,
      hnil before fun k hk => hnot k (List.mem_append_left _ hk),
      hnil behind fun k hk => hnot k (List.mem_append_right _ hk), List.nil_append, List.append_nil]
  unfold inFlight path
  rw [seqsOf_append, seqsOf_append, seqsOf_append,
    hlanes _ (List.nodup_finRange _) (List.mem_finRange _)]

/-- How an observer of the lanes reads a step. -/
def view : PipelineEvent → Option (Lanes.Event String)
  | .generated evt => some (.issued evt.symbol evt.seq)
  | .droppedEvent evt => some (.lost evt.symbol evt.seq)
  | .droppedDecision d => some (.lost d.symbol d.seq)
  | .rejected d => some (.lost d.symbol d.seq)
  | .droppedOrder cmd => some (.lost cmd.symbol cmd.seq)
  | .popped cmd => some (.delivered cmd.symbol cmd.seq)

theorem issuedOf_view (sym : String) (trace : List PipelineEvent) :
    Lanes.issuedOf sym (trace.filterMap view) = seqsOf sym ((generated trace).map eventTag) := by
  unfold Lanes.issuedOf seqsOf generated
  rw [List.filterMap_filterMap, List.filterMap_map, List.filterMap_filterMap]
  congr 1
  funext e
  cases e <;> rfl

theorem deliveredOf_view (sym : String) (trace : List PipelineEvent) :
    Lanes.deliveredOf sym (trace.filterMap view) = seqsOf sym ((popped trace).map commandTag) := by
  unfold Lanes.deliveredOf seqsOf popped
  rw [List.filterMap_filterMap, List.filterMap_map, List.filterMap_filterMap]
  congr 1
  funext e
  cases e <;> rfl

theorem filterMap_or_perm {α β : Type} {f g : α → Option β}
    (disjoint : ∀ a, f a = none ∨ g a = none) (l : List α) :
    l.filterMap (fun a => (f a).or (g a)) ~ l.filterMap f ++ l.filterMap g := by
  induction l with
  | nil => exact List.Perm.nil
  | cons a l ih =>
    rw [List.filterMap_cons, List.filterMap_cons, List.filterMap_cons]
    rcases disjoint a with h | h
    · rw [h, Option.none_or]
      cases g a with
      | none => exact ih
      | some b => exact (ih.cons b).trans List.perm_middle.symm
    · rw [h, Option.or_none]
      cases f a with
      | none => exact ih
      | some b => exact ih.cons b

theorem lostOf_view (sym : String) (trace : List PipelineEvent) :
    Lanes.lostOf sym (trace.filterMap view) ~
      seqsOf sym (dropped trace) ++ seqsOf sym ((rejected trace).map decisionTag) := by
  unfold Lanes.lostOf seqsOf dropped rejected
  rw [List.filterMap_filterMap, List.filterMap_filterMap, List.filterMap_map,
    List.filterMap_filterMap]
  refine List.Perm.trans (List.Perm.of_eq ?_) (filterMap_or_perm ?_ trace)
  · congr 1
    funext e
    cases e <;> first | rfl | exact (Option.or_none).symm
  · intro e
    cases e <;> first | exact Or.inl rfl | exact Or.inr rfl

/-! ## Every step is one of the lanes -/

/-- The numbers issued and the paths, as lanes. -/
def lanes (s : Pipeline c.shards) : Lanes.State String where
  last := s.seqs
  transit := path s

/-- A step that the lanes can follow with at most one of their own. -/
def Simulated (s u : Pipeline c.shards) (seen : List PipelineEvent) : Prop :=
  ∃ actions, (Lanes.machine String).Run (lanes s) actions (lanes u) (seen.filterMap view)

section Simulated

variable {s u : Pipeline c.shards} {seen : List PipelineEvent}

theorem simulated_stay (seqs : u.seqs = s.seqs) (same : ∀ sym, path u sym = path s sym)
    (seen_nil : seen.filterMap view = []) : Simulated s u seen := by
  have hlanes : lanes u = lanes s := by
    unfold lanes
    rw [seqs, funext same]
  refine ⟨[], ?_⟩
  rw [hlanes, seen_nil]
  exact Machine.Run.nil _

theorem path_update {sym : String} {l : List Int} (here : path u sym = l)
    (other : ∀ sym', sym' ≠ sym → path u sym' = path s sym') :
    path u = Function.update (path s) sym l := by
  funext sym'
  by_cases h : sym' = sym
  · rw [h, Function.update_self, here]
  · rw [Function.update_of_ne h, other sym' h]

theorem simulated_lose (t : Tag) (before behind : List Int) (seqs : u.seqs = s.seqs)
    (old : path s t.1 = before ++ t.2 :: behind) (new : path u t.1 = before ++ behind)
    (other : ∀ sym, sym ≠ t.1 → path u sym = path s sym)
    (seen_lost : seen.filterMap view = [.lost t.1 t.2]) : Simulated s u seen := by
  have hstep := Lanes.step_lose (s := lanes s) old
  have hlanes : lanes u =
      { lanes s with transit := Function.update (path s) t.1 (before ++ behind) } := by
    unfold lanes
    rw [seqs, path_update new other]
  refine ⟨[.lose t.1 before.length], ?_⟩
  rw [hlanes, seen_lost]
  exact Machine.Run.single hstep

theorem simulated_deliver (t : Tag) (rest : List Int) (seqs : u.seqs = s.seqs)
    (old : path s t.1 = t.2 :: rest) (new : path u t.1 = rest)
    (other : ∀ sym, sym ≠ t.1 → path u sym = path s sym)
    (seen_delivered : seen.filterMap view = [.delivered t.1 t.2]) : Simulated s u seen := by
  have hstep := Lanes.step_deliver (s := lanes s) old
  have hlanes : lanes u = { lanes s with transit := Function.update (path s) t.1 rest } := by
    unfold lanes
    rw [seqs, path_update new other]
  refine ⟨[.deliver t.1], ?_⟩
  rw [hlanes, seen_delivered]
  exact Machine.Run.single hstep

theorem simulated_issue {sym : String}
    (seqs : u.seqs = Function.update s.seqs sym (s.seqs sym + 1))
    (new : path u sym = path s sym ++ [s.seqs sym + 1])
    (other : ∀ sym', sym' ≠ sym → path u sym' = path s sym')
    (seen_issued : seen.filterMap view = [.issued sym (s.seqs sym + 1)]) : Simulated s u seen := by
  have hstep := Lanes.step_issue (lanes s) sym
  have hlanes : lanes u = { last := Function.update s.seqs sym (s.seqs sym + 1)
                            transit := Function.update (path s) sym (path s sym ++ [s.seqs sym + 1]) } := by
    unfold lanes
    rw [seqs, path_update new other]
  refine ⟨[.issue sym], ?_⟩
  rw [hlanes, seen_issued]
  exact Machine.Run.single hstep

end Simulated

section Steps

variable {s u : Pipeline c.shards} {seen : List PipelineEvent}

theorem lane_update {shards : Fin c.shards → Shard} {k : Fin c.shards} {shard : Shard}
    (same : lane shard = lane (shards k)) (j : Fin c.shards) :
    lane (Function.update shards k shard j) = lane (shards j) := by
  by_cases hj : j = k
  · rw [hj, Function.update_self, same]
  · rw [Function.update_of_ne hj]

theorem sharded_same {shards shards' : Fin c.shards → Shard} (sharded : Sharded shards)
    (same : ∀ j, lane (shards' j) = lane (shards j)) : Sharded shards' := by
  intro k t ht
  rw [same] at ht
  exact sharded k t ht

theorem path_congr (orders : u.orders.contents = s.orders.contents)
    (oms : omsHeld u.oms = omsHeld s.oms) (lanes : ∀ k, lane (u.shards k) = lane (s.shards k))
    (feed : feedHeld u.feed = feedHeld s.feed) (sym : String) : path u sym = path s sym := by
  unfold path
  rw [orders, oms, lanes, feed]

theorem feedStep_simulated (sharded : Sharded s.shards) (h : Pipeline.FeedEffect s u seen) :
    Simulated s u seen ∧ Sharded u.shards := by
  cases h with
  | tested before after =>
    subst after
    refine ⟨simulated_stay rfl (path_congr rfl rfl (fun _ => rfl) ?_) rfl, sharded⟩
    rw [before]
    cases s.running <;> rfl
  | turned before after =>
    subst after
    refine ⟨simulated_stay rfl (path_congr rfl rfl (fun _ => rfl) ?_) rfl, sharded⟩
    rw [before]
    rfl
  | generated sym rest evt before symbol seq after =>
    subst after
    have hother : ∀ sym', seqsOf sym' (feedHeld s.feed) = [] := fun _ => by rw [before]; rfl
    have htag : eventTag evt = (sym, s.seqs sym + 1) := by rw [eventTag, symbol, seq]
    refine ⟨simulated_issue rfl ?_ (fun sym' hne => ?_) ?_, sharded⟩
    · unfold path
      rw [hother, List.append_nil, List.append_assoc, List.append_assoc]
      congr 3
      rw [feedHeld, htag]
      exact seqsOf_self (t := (sym, s.seqs sym + 1))
    · unfold path
      rw [hother]
      congr 3
      rw [feedHeld, htag]
      exact seqsOf_other (Ne.symm hne)
    · show [Lanes.Event.issued evt.symbol evt.seq] = [.issued sym (s.seqs sym + 1)]
      rw [symbol, seq]
  | pushed evt rest queue before contents after =>
    subst after
    have hlane : lane { s.shards (c.shardForSymbol evt.symbol) with inbound := queue } =
        lane (s.shards (c.shardForSymbol evt.symbol)) ++ [eventTag evt] := by
      unfold lane
      rw [contents, List.map_append, List.append_assoc, List.append_assoc]
      rfl
    refine ⟨simulated_stay rfl (fun sym => ?_) rfl, sharded.update fun t ht => ?_⟩
    · unfold path Pipeline.setShard
      rw [before]
      dsimp only
      by_cases hk : c.shardForSymbol sym = c.shardForSymbol evt.symbol
      · rw [hk, Function.update_self, hlane, seqsOf_append, List.append_assoc]
        simp only [feedHeld, seqsOf_nil, List.append_nil]
      · have hne : (eventTag evt).1 ≠ sym := fun he => hk (congrArg c.shardForSymbol he.symm)
        rw [Function.update_of_ne hk]
        simp only [feedHeld, seqsOf_nil, seqsOf_other hne]
    · rw [hlane, List.mem_append, List.mem_singleton] at ht
      rcases ht with ht | rfl
      · exact sharded _ t ht
      · rfl
  | dropped evt rest queue before contents after =>
    subst after
    have hlane : lane { s.shards (c.shardForSymbol evt.symbol) with inbound := queue } =
        lane (s.shards (c.shardForSymbol evt.symbol)) := by
      unfold lane
      rw [contents]
    refine ⟨simulated_lose (eventTag evt)
      (seqsOf evt.symbol (s.orders.contents.map commandTag) ++ (seqsOf evt.symbol (omsHeld s.oms) ++
        seqsOf evt.symbol (lane (s.shards (c.shardForSymbol evt.symbol))))) [] rfl ?_ ?_
      (fun sym hne => ?_) rfl, sharded_same sharded (lane_update hlane)⟩
    · unfold path
      rw [before, feedHeld, seqsOf_self, List.append_assoc, List.append_assoc]
      rfl
    · unfold path Pipeline.setShard
      dsimp only
      rw [lane_update hlane, List.append_nil]
      simp only [feedHeld, seqsOf_nil, List.append_nil]
      rfl
    · unfold path Pipeline.setShard
      dsimp only
      rw [lane_update hlane, before]
      simp only [feedHeld, seqsOf_nil, seqsOf_other (Ne.symm hne)]

/-- A step of a shard that leaves its lane as it is. -/
theorem setShard_simulated (sharded : Sharded s.shards) {k : Fin c.shards} {shard : Shard}
    (same : lane shard = lane (s.shards k)) :
    Simulated s (s.setShard k shard) [] ∧ Sharded (s.setShard k shard).shards := by
  exact ⟨simulated_stay rfl (path_congr rfl rfl (lane_update same) rfl) rfl,
    sharded_same sharded (lane_update same)⟩

theorem strategyStep_simulated {k : Fin c.shards} (sharded : Sharded s.shards)
    (h : Pipeline.StrategyEffect s u k seen) : Simulated s u seen ∧ Sharded u.shards := by
  cases h with
  | tested before after =>
    rw [after]
    refine setShard_simulated sharded ?_
    unfold lane
    rw [before]
    cases s.running <;> rfl
  | empty queue before contents after =>
    rw [after]
    refine setShard_simulated sharded ?_
    unfold lane
    rw [before, contents]
    rfl
  | popped evt queue before contents after =>
    rw [after]
    refine setShard_simulated sharded ?_
    unfold lane
    rw [before, contents]
    rfl
  | pushed d queue before contents after =>
    rw [after]
    refine setShard_simulated sharded ?_
    unfold lane
    rw [before, contents, List.map_append, List.append_assoc]
    rfl
  | dropped d queue before contents after =>
    subst after
    have hold : lane (s.shards k) = (s.shards k).outbound.contents.map decisionTag ++
        (decisionTag d :: (s.shards k).inbound.contents.map eventTag) := by
      unfold lane
      rw [before]
      rfl
    have hnew : lane { s.shards k with outbound := queue, pc := .test } =
        (s.shards k).outbound.contents.map decisionTag ++
          (s.shards k).inbound.contents.map eventTag := by
      unfold lane
      rw [contents]
      rfl
    have hk : c.shardForSymbol (decisionTag d).1 = k :=
      sharded k _ (by rw [hold]; exact List.mem_append_right _ List.mem_cons_self)
    refine ⟨simulated_lose (decisionTag d)
      (seqsOf d.symbol (s.orders.contents.map commandTag) ++ (seqsOf d.symbol (omsHeld s.oms) ++
        seqsOf d.symbol ((s.shards k).outbound.contents.map decisionTag)))
      (seqsOf d.symbol ((s.shards k).inbound.contents.map eventTag) ++
        seqsOf d.symbol (feedHeld s.feed)) rfl ?_ ?_ (fun sym hne => ?_) rfl,
      sharded.update fun t ht => ?_⟩
    · unfold path
      rw [hk, hold, seqsOf_append, seqsOf_cons, seqsOf_self]
      simp only [List.append_assoc, List.singleton_append]
      rfl
    · unfold path Pipeline.setShard
      rw [hk]
      simp only [Function.update_self, hnew, seqsOf_append, List.append_assoc]
      rfl
    · unfold path Pipeline.setShard
      by_cases hsym : c.shardForSymbol sym = k
      · rw [hsym]
        simp only [Function.update_self, hnew, hold, seqsOf_append]
        rw [seqsOf_cons, seqsOf_other (Ne.symm hne), List.nil_append]
      · simp only [Function.update_of_ne hsym]
    · apply sharded k
      rw [hnew] at ht
      rw [hold]
      exact ((List.Sublist.refl _).append (List.sublist_cons_self _ _)).subset ht

/-- The risk stage has taken a decision out of a shard, the only one to hold its symbol. -/
theorem lane_popped (sharded : Sharded s.shards) {k : Fin c.shards} {d : StrategyDecision}
    {queue : StrategyQueue} (contents : (s.shards k).outbound.contents = d :: queue.contents) :
    Sharded (Function.update s.shards k { s.shards k with outbound := queue }) ∧
      ∀ sym, seqsOf sym (lane (s.shards (c.shardForSymbol sym))) =
        seqsOf sym [decisionTag d] ++ seqsOf sym (lane (Function.update s.shards k
          { s.shards k with outbound := queue } (c.shardForSymbol sym))) := by
  have hold : lane (s.shards k) = decisionTag d :: lane { s.shards k with outbound := queue } := by
    unfold lane
    rw [contents]
    rfl
  have hk : c.shardForSymbol (decisionTag d).1 = k :=
    sharded k _ (by rw [hold]; exact List.mem_cons_self)
  refine ⟨sharded.update fun t ht => sharded k t (by rw [hold]; exact List.mem_cons_of_mem _ ht), ?_⟩
  intro sym
  by_cases hsym : c.shardForSymbol sym = k
  · rw [hsym, Function.update_self, hold, seqsOf_cons]
  · have hne : (decisionTag d).1 ≠ sym := fun he => hsym (by rw [← he, hk])
    rw [Function.update_of_ne hsym, seqsOf_other hne, List.nil_append]

theorem omsStep_simulated (sharded : Sharded s.shards) (h : Pipeline.OmsEffect s u seen) :
    Simulated s u seen ∧ Sharded u.shards := by
  cases h with
  | tested before after =>
    subst after
    refine ⟨simulated_stay rfl (path_congr rfl ?_ (fun _ => rfl) rfl) rfl, sharded⟩
    rw [before]
    cases s.running <;> rfl
  | turned before after =>
    subst after
    refine ⟨simulated_stay rfl (path_congr rfl ?_ (fun _ => rfl) rfl) rfl, sharded⟩
    rw [before]
    rfl
  | empty k rest queue before contents after =>
    subst after
    have hlane : lane { s.shards k with outbound := queue } = lane (s.shards k) := by
      unfold lane
      rw [contents]
    refine ⟨simulated_stay rfl (path_congr rfl ?_ (lane_update hlane) rfl) rfl,
      sharded_same sharded (lane_update hlane)⟩
    rw [before]
    rfl
  | passed k rest d queue before contents risk after =>
    subst after
    obtain ⟨hsharded, hlane⟩ := lane_popped sharded contents
    refine ⟨simulated_stay rfl (fun sym => ?_) rfl, hsharded⟩
    unfold path
    rw [before, hlane, List.append_assoc]
    rfl
  | rejected k rest d queue before contents after =>
    subst after
    obtain ⟨hsharded, hlane⟩ := lane_popped sharded contents
    refine ⟨simulated_lose (decisionTag d)
      (seqsOf d.symbol (s.orders.contents.map commandTag))
      (seqsOf d.symbol (lane (Function.update s.shards k
        { s.shards k with outbound := queue } (c.shardForSymbol d.symbol))) ++
        seqsOf d.symbol (feedHeld s.feed)) rfl ?_ ?_ (fun sym hne => ?_) rfl, hsharded⟩
    · unfold path
      rw [before, hlane, seqsOf_self]
      rfl
    · unfold path
      rfl
    · unfold path
      rw [before, hlane sym, seqsOf_other (Ne.symm hne), List.nil_append]
      rfl
  | pushed cmd rest queue before contents after =>
    subst after
    refine ⟨simulated_stay rfl (fun sym => ?_) rfl, sharded⟩
    unfold path
    rw [before]
    dsimp only
    rw [contents, List.map_append, seqsOf_append, List.append_assoc]
    rfl
  | dropped cmd rest queue before contents after =>
    subst after
    refine ⟨simulated_lose (commandTag cmd) (seqsOf cmd.symbol (s.orders.contents.map commandTag))
      (seqsOf cmd.symbol (lane (s.shards (c.shardForSymbol cmd.symbol))) ++
        seqsOf cmd.symbol (feedHeld s.feed)) rfl ?_ ?_ (fun sym hne => ?_) rfl, sharded⟩
    · unfold path
      rw [before, omsHeld, seqsOf_self]
      rfl
    · unfold path
      dsimp only
      rw [contents]
      rfl
    · unfold path
      rw [before]
      dsimp only
      rw [contents]
      simp only [omsHeld, seqsOf_nil, seqsOf_other (Ne.symm hne)]

theorem tradeStep_simulated (sharded : Sharded s.shards) (h : Pipeline.TradeEffect s u seen) :
    Simulated s u seen ∧ Sharded u.shards := by
  cases h with
  | tested after =>
    subst after
    exact ⟨simulated_stay rfl (fun _ => rfl) rfl, sharded⟩
  | empty queue contents after =>
    subst after
    exact ⟨simulated_stay rfl (path_congr contents rfl (fun _ => rfl) rfl) rfl, sharded⟩
  | popped cmd queue contents after =>
    subst after
    have hpath : ∀ sym, path s sym = seqsOf sym [commandTag cmd] ++
        path { s with orders := queue, trade := .test } sym := by
      intro sym
      unfold path
      rw [contents, List.map_cons, seqsOf_cons, List.append_assoc]
    refine ⟨simulated_deliver (commandTag cmd)
      (path { s with orders := queue, trade := .test } cmd.symbol) rfl ?_ rfl
      (fun sym hne => ?_) rfl, sharded⟩
    · rw [hpath, seqsOf_self]
      rfl
    · rw [hpath sym, seqsOf_other (Ne.symm hne), List.nil_append]

theorem step_simulated {a : PipelineAction c.shards} (sharded : Sharded s.shards)
    (h : (Pipeline.machine c).step s a = some (u, seen)) :
    Simulated s u seen ∧ Sharded u.shards := by
  cases a with
  | feed x y => exact feedStep_simulated sharded (Pipeline.feedStep_effect h)
  | strategy k => exact strategyStep_simulated sharded (Pipeline.strategyStep_effect h)
  | oms => exact omsStep_simulated sharded (Pipeline.omsStep_effect h)
  | trade => exact tradeStep_simulated sharded (Pipeline.tradeStep_effect h)
  | stop =>
    cases h
    exact ⟨simulated_stay rfl (fun _ => rfl) rfl, sharded⟩

end Steps

/-! ## Sides and risk -/

/-- What the strategy and the risk stage see to. -/
structure Vetted (cmd : OrderCommand) : Prop where
  side : cmd.buy = true ↔ cmd.seq % 2 = 0
  risk : ∃ d, riskPasses d = true ∧ cmd = orderCommand d

def decisionHeld : StrategyPc → List StrategyDecision
  | .push d => [d]
  | _ => []

def commandHeld {n : Nat} : OmsPc n → List OrderCommand
  | .push cmd _ => [cmd]
  | _ => []

def decisionsOf (shard : Shard) : List StrategyDecision :=
  decisionHeld shard.pc ++ shard.outbound.contents

def commandsOf (s : Pipeline c.shards) : List OrderCommand := commandHeld s.oms ++ s.orders.contents

/-- Decisions in a shard, commands behind the risk stage and commands popped. -/
structure Checked (s : Pipeline c.shards) (trace : List PipelineEvent) : Prop where
  decisions : ∀ k, ∀ d ∈ decisionsOf (s.shards k), d.buy = true ↔ d.seq % 2 = 0
  commands : ∀ cmd ∈ commandsOf s, Vetted cmd
  popped : ∀ cmd ∈ popped trace, Vetted cmd

theorem strategyDecision_side (evt : MarketEvent ℚ) :
    (strategyDecision evt).buy = true ↔ (strategyDecision evt).seq % 2 = 0 := decide_eq_true_iff

section Checked

variable {s u : Pipeline c.shards} {trace seen : List PipelineEvent}

theorem popped_append : popped (trace ++ seen) = popped trace ++ popped seen := List.filterMap_append

theorem forall_update {P : StrategyDecision → Prop} {shards : Fin c.shards → Shard}
    (h : ∀ k, ∀ d ∈ decisionsOf (shards k), P d) {k : Fin c.shards} {shard : Shard}
    (new : ∀ d ∈ decisionsOf shard, P d) :
    ∀ j, ∀ d ∈ decisionsOf (Function.update shards k shard j), P d := by
  intro j d hd
  by_cases hj : j = k
  · rw [hj, Function.update_self] at hd
    exact new d hd
  · rw [Function.update_of_ne hj] at hd
    exact h j d hd

/-- A step that pops nothing from the order queue. -/
theorem Checked.unpopped (h : Checked s trace)
    (decisions : ∀ k, ∀ d ∈ decisionsOf (u.shards k), d.buy = true ↔ d.seq % 2 = 0)
    (commands : ∀ cmd ∈ commandsOf u, Vetted cmd)
    (nothing : PipelineOrder.popped seen = []) : Checked u (trace ++ seen) where
  decisions := decisions
  commands := commands
  popped cmd hcmd := by
    rw [popped_append, nothing, List.append_nil] at hcmd
    exact h.popped cmd hcmd

theorem feedStep_checked (h : Checked s trace) (step : Pipeline.FeedEffect s u seen) :
    Checked u (trace ++ seen) := by
  cases step with
  | tested before after =>
    subst after
    exact h.unpopped h.decisions h.commands rfl
  | turned before after =>
    subst after
    exact h.unpopped h.decisions h.commands rfl
  | generated sym rest evt before symbol seq after =>
    subst after
    exact h.unpopped h.decisions h.commands rfl
  | pushed evt rest queue before contents after =>
    subst after
    exact h.unpopped (forall_update h.decisions (h.decisions _)) h.commands rfl
  | dropped evt rest queue before contents after =>
    subst after
    exact h.unpopped (forall_update h.decisions (h.decisions _)) h.commands rfl

theorem strategyStep_checked {k : Fin c.shards} (h : Checked s trace)
    (step : Pipeline.StrategyEffect s u k seen) : Checked u (trace ++ seen) := by
  have hqueued : ∀ d ∈ (s.shards k).outbound.contents, d.buy = true ↔ d.seq % 2 = 0 :=
    fun d hd => h.decisions k d (List.mem_append_right _ hd)
  have hheld : ∀ {d}, (s.shards k).pc = .push d → (d.buy = true ↔ d.seq % 2 = 0) := by
    intro d hpc
    apply h.decisions k
    unfold decisionsOf
    rw [hpc]
    exact List.mem_append_left _ (List.mem_singleton_self d)
  cases step with
  | tested before after =>
    subst after
    refine h.unpopped (forall_update h.decisions fun d hd => hqueued d ?_) h.commands rfl
    unfold decisionsOf at hd
    cases hrunning : s.running with
    | true =>
      rw [hrunning] at hd
      exact hd
    | false =>
      rw [hrunning] at hd
      exact hd
  | empty queue before contents after =>
    subst after
    exact h.unpopped (forall_update h.decisions hqueued) h.commands rfl
  | popped evt queue before contents after =>
    subst after
    refine h.unpopped (forall_update h.decisions fun d hd => ?_) h.commands rfl
    rcases List.mem_cons.mp hd with rfl | hd
    · exact strategyDecision_side evt
    · exact hqueued d hd
  | pushed decision queue before contents after =>
    subst after
    refine h.unpopped (forall_update h.decisions fun d hd => ?_) h.commands rfl
    have hmem : d ∈ (s.shards k).outbound.contents ++ [decision] := contents ▸ hd
    rcases List.mem_append.mp hmem with hd | hd
    · exact hqueued d hd
    · rw [List.mem_singleton.mp hd]
      exact hheld before
  | dropped decision queue before contents after =>
    subst after
    refine h.unpopped (forall_update h.decisions fun d hd => hqueued d ?_) h.commands rfl
    rw [← contents]
    exact hd

/-- The decisions of a shard after the risk stage has taken the oldest one. -/
theorem decisions_popped {P : StrategyDecision → Prop} {shard : Shard} {d : StrategyDecision}
    {queue : StrategyQueue} (contents : shard.outbound.contents = d :: queue.contents)
    (h : ∀ d' ∈ decisionsOf shard, P d') :
    P d ∧ ∀ d' ∈ decisionsOf { shard with outbound := queue }, P d' := by
  unfold decisionsOf at h ⊢
  rw [contents] at h
  refine ⟨h d (List.mem_append_right _ List.mem_cons_self), ?_⟩
  intro d' hd'
  exact h d' (((List.Sublist.refl _).append (List.sublist_cons_self _ _)).subset hd')

theorem omsStep_checked (h : Checked s trace) (step : Pipeline.OmsEffect s u seen) :
    Checked u (trace ++ seen) := by
  have hqueued : ∀ cmd ∈ s.orders.contents, Vetted cmd :=
    fun cmd hcmd => h.commands cmd (List.mem_append_right _ hcmd)
  have hheld : ∀ {cmd rest}, s.oms = .push cmd rest → Vetted cmd := by
    intro cmd rest hpc
    apply h.commands
    unfold commandsOf
    rw [hpc]
    exact List.mem_append_left _ (List.mem_singleton_self cmd)
  cases step with
  | tested before after =>
    subst after
    refine h.unpopped h.decisions (fun cmd hcmd => hqueued cmd ?_) rfl
    unfold commandsOf at hcmd
    cases hrunning : s.running with
    | true =>
      rw [hrunning] at hcmd
      exact hcmd
    | false =>
      rw [hrunning] at hcmd
      exact hcmd
  | turned before after =>
    subst after
    exact h.unpopped h.decisions hqueued rfl
  | empty k rest queue before contents after =>
    subst after
    refine h.unpopped (forall_update h.decisions fun d hd => h.decisions k d ?_) hqueued rfl
    unfold decisionsOf at hd ⊢
    rw [← contents]
    exact hd
  | passed k rest d queue before contents risk after =>
    subst after
    obtain ⟨hd, hshard⟩ := decisions_popped contents (h.decisions k)
    refine h.unpopped (forall_update h.decisions hshard) (fun cmd hcmd => ?_) rfl
    rcases List.mem_cons.mp hcmd with rfl | hcmd
    · exact ⟨hd, d, risk, rfl⟩
    · exact hqueued cmd hcmd
  | rejected k rest d queue before contents after =>
    subst after
    obtain ⟨-, hshard⟩ := decisions_popped contents (h.decisions k)
    exact h.unpopped (forall_update h.decisions hshard) hqueued rfl
  | pushed cmd rest queue before contents after =>
    subst after
    refine h.unpopped h.decisions (fun cmd' hcmd => ?_) rfl
    have hmem : cmd' ∈ s.orders.contents ++ [cmd] := contents ▸ hcmd
    rcases List.mem_append.mp hmem with hcmd | hcmd
    · exact hqueued cmd' hcmd
    · rw [List.mem_singleton.mp hcmd]
      exact hheld before
  | dropped cmd rest queue before contents after =>
    subst after
    refine h.unpopped h.decisions (fun cmd' hcmd => hqueued cmd' ?_) rfl
    rw [← contents]
    exact hcmd

theorem tradeStep_checked (h : Checked s trace) (step : Pipeline.TradeEffect s u seen) :
    Checked u (trace ++ seen) := by
  cases step with
  | tested after =>
    subst after
    exact h.unpopped h.decisions h.commands rfl
  | empty queue contents after =>
    subst after
    refine h.unpopped h.decisions (fun cmd hcmd => h.commands cmd ?_) rfl
    unfold commandsOf at hcmd ⊢
    rw [← contents]
    exact hcmd
  | popped cmd queue contents after =>
    subst after
    refine ⟨h.decisions, fun cmd' hcmd => h.commands cmd' ?_, fun cmd' hcmd => ?_⟩
    · unfold commandsOf at hcmd ⊢
      rw [contents]
      exact ((List.Sublist.refl _).append (List.sublist_cons_self _ _)).subset hcmd
    · rw [popped_append] at hcmd
      rcases List.mem_append.mp hcmd with hcmd | hcmd
      · exact h.popped cmd' hcmd
      · apply h.commands
        rw [List.mem_singleton.mp hcmd]
        unfold commandsOf
        rw [contents]
        exact List.mem_append_right _ List.mem_cons_self

theorem step_checked {a : PipelineAction c.shards} (h : Checked s trace)
    (step : (Pipeline.machine c).step s a = some (u, seen)) : Checked u (trace ++ seen) := by
  cases a with
  | feed x y => exact feedStep_checked h (Pipeline.feedStep_effect step)
  | strategy k => exact strategyStep_checked h (Pipeline.strategyStep_effect step)
  | oms => exact omsStep_checked h (Pipeline.omsStep_effect step)
  | trade => exact tradeStep_checked h (Pipeline.tradeStep_effect step)
  | stop =>
    cases step
    exact h.unpopped h.decisions h.commands rfl

end Checked

/-! ## Whole runs -/

theorem count_generated (sym : String) (n : Int) (events : List (MarketEvent ℚ)) :
    events.countP (fun evt => evt.symbol = sym ∧ evt.seq = n) =
      (seqsOf sym (events.map eventTag)).count n := by
  unfold seqsOf List.count
  rw [List.filterMap_map, List.countP_filterMap]
  congr 1
  funext evt
  by_cases hsym : evt.symbol = sym <;> simp [eventTag, hsym, Bool.beq_eq_decide_eq]

theorem start_path (sym : String) : path (Pipeline.start c) sym = [] := by
  unfold path lane Pipeline.start
  simp only [SPSCRing.contents_empty, List.map_nil, omsHeld, strategyHeld, feedHeld, List.append_nil,
    seqsOf_nil]

theorem start_sharded : Sharded (Pipeline.start c).shards := by
  intro k t ht
  unfold lane Pipeline.start at ht
  simp [strategyHeld] at ht

theorem start_checked : Checked (Pipeline.start c) [] where
  decisions k d hd := by
    unfold decisionsOf Pipeline.start at hd
    simp [decisionHeld] at hd
  commands cmd hcmd := by
    unfold commandsOf Pipeline.start at hcmd
    simp [commandHeld] at hcmd
  popped cmd hcmd := absurd hcmd List.not_mem_nil

variable {s : Pipeline c.shards} {actions : List (PipelineAction c.shards)}
  {trace : List PipelineEvent}

/-- What a run shows of the lanes is a run of theirs. -/
theorem run_lanes (h : (Pipeline.machine c).Run (Pipeline.start c) actions s trace) :
    Sharded s.shards ∧ ∀ sym, Lanes.Kept (lanes s) (trace.filterMap view) sym := by
  obtain ⟨actions', l, trace', hrun, ⟨rfl, hsharded⟩, htrace⟩ :=
    h.simulation view some (R := fun s l => l = lanes s ∧ Sharded s.shards)
      ⟨rfl, start_sharded⟩ (by
        intro s l a u seen hboth hstep
        obtain ⟨rfl, hsharded⟩ := hboth
        obtain ⟨⟨actions', hrun'⟩, hsharded'⟩ := step_simulated hsharded hstep
        exact ⟨actions', _, _, hrun', ⟨rfl, hsharded'⟩, List.filterMap_some.symm⟩)
  rw [List.filterMap_some] at htrace
  rw [htrace]
  exact ⟨hsharded, Lanes.Kept.of_run start_path hrun⟩

theorem pipeline_in_order (c : Setup) (s : Pipeline c.shards)
    (actions : List (PipelineAction c.shards)) (trace : List PipelineEvent)
    (h : (Pipeline.machine c).Run (Pipeline.start c) actions s trace) : InOrder s trace := by
  obtain ⟨hsharded, hkept⟩ := run_lanes h
  have hchecked : Checked s trace :=
    h.invariant (I := Checked) start_checked fun hI hstep => step_checked hI hstep
  have hconserved : ∀ sym, seqsOf sym ((generated trace).map eventTag) ~
      seqsOf sym ((popped trace).map commandTag) ++ path s sym ++
        (seqsOf sym (dropped trace) ++ seqsOf sym ((rejected trace).map decisionTag)) := by
    intro sym
    have hperm := (hkept sym).conserved
    rw [issuedOf_view, deliveredOf_view] at hperm
    exact hperm.trans ((lostOf_view sym trace).append_left _)
  refine ⟨fun cmd hcmd => ?_, fun cmd hcmd => (hchecked.popped cmd hcmd).side, fun sym => ?_,
    fun cmd hcmd => (hchecked.popped cmd hcmd).risk, fun sym => ?_⟩
  · have hissued := (hkept cmd.symbol).issued
    rw [issuedOf_view] at hissued
    have hpopped : cmd.seq ∈ seqsOf cmd.symbol ((popped trace).map commandTag) :=
      mem_seqsOf.mpr (List.mem_map_of_mem hcmd)
    have hmem := (hconserved cmd.symbol).mem_iff.mpr
      (List.mem_append_left _ (List.mem_append_left _ hpopped))
    rw [count_generated]
    exact List.count_eq_one_of_mem (hissued.imp fun hlt => Int.ne_of_lt hlt) hmem
  · have hordered := (hkept sym).ordered
    rw [deliveredOf_view, List.pairwise_append] at hordered
    exact hordered.1
  · rw [inFlight_path hsharded, List.append_assoc _ (seqsOf sym (dropped trace))]
    exact hconserved sym

/-- One symbol and one shard. -/
def single : Setup where
  symbols := ["BTCUSDT"]
  shards := 1
  hash := fun _ => 0
  some_shard := by decide

/-- Every thread once around. -/
def firstOrder : List (PipelineAction single.shards) :=
  let shard : Fin single.shards := ⟨0, by decide⟩
  [.feed 0 0, .feed 0 0, .feed 0 0, .strategy shard, .strategy shard, .strategy shard, .oms, .oms, .oms,
    .trade, .trade]

theorem pipeline_in_order_first :
    ∃ s trace, (Pipeline.machine single).Run (Pipeline.start single) firstOrder s trace ∧
      (popped trace).length = 1 ∧ InOrder s trace :=
  ⟨_, _, Machine.run_of_isSome _ _ (by decide +kernel), by decide +kernel,
    pipeline_in_order _ _ _ _ (Machine.run_of_isSome _ _ (by decide +kernel))⟩

end CppCodes.Guarantees.PipelineOrder
