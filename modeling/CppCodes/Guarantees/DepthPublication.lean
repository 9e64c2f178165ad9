import CppCodes.Source.FrameWork.BinanceDepth
import CppCodes.Library.History

/-!
# What the depth connector publishes

The book has, for each price, the quantity that came last, unless that was zero. After
every message with which both sides have a price, and after no other one, the best prices
are offered to the shard. A message that cannot be read leaves the book as it is. One that
has NaN for a price puts the book out of order, and what follows is left open.
-/

set_option autoImplicit false

namespace CppCodes.Guarantees.DepthPublication

open Library
open Source.FrameWork
open Source.FrameWork.BinanceDepth
open Source.HftTest (SPSCRing)

/-! ## The market behind the messages -/

/-- The quantity that was last given for the price, and not taken back. -/
def Quoted (levels : List PriceLevel) (price qty : DoubleValue) : Prop :=
  LastWrite (levels.map fun lvl => (lvl.price, lvl.qty)) price qty ∧ qty ≠ .finite 0

def bidsOf (depths : List Depth) : List PriceLevel := depths.flatMap Depth.bids

def asksOf (depths : List Depth) : List PriceLevel := depths.flatMap Depth.asks

/-- Both sides have a price. -/
def TwoSided (depths : List Depth) : Prop :=
  (∃ price qty, Quoted (bidsOf depths) price qty) ∧ ∃ price qty, Quoted (asksOf depths) price qty

/-- The event tells the highest bid and the lowest ask, the smaller quantity of the two and
the number of the last message. -/
structure TellsBest (symbol : String) (depths : List Depth) (evt : MarketEvent DoubleValue) : Prop where
  symbol : evt.symbol = symbol
  bid : ∃ bidQty askQty, Quoted (bidsOf depths) evt.bid bidQty ∧
    Quoted (asksOf depths) evt.ask askQty ∧ evt.size = bidQty.min askQty
  highest : ∀ price qty, Quoted (bidsOf depths) price qty → price.le evt.bid = true
  lowest : ∀ price qty, Quoted (asksOf depths) price qty → evt.ask.le price = true
  seq : depths.getLast?.map Depth.updateId = some evt.seq

/-- The events that messages call for, oldest first. -/
inductive Reports (symbol : String) : List Depth → List (MarketEvent DoubleValue) → Prop where
  | start : Reports symbol [] []
  | quiet {depths : List Depth} {evts : List (MarketEvent DoubleValue)} (depth : Depth) :
      Reports symbol depths evts → ¬ TwoSided (depths ++ [depth]) →
        Reports symbol (depths ++ [depth]) evts
  | best {depths : List Depth} {evts : List (MarketEvent DoubleValue)} {depth : Depth} {evt : MarketEvent DoubleValue} :
      Reports symbol depths evts → TellsBest symbol (depths ++ [depth]) evt →
        Reports symbol (depths ++ [depth]) (evts ++ [evt])

theorem quoted_snoc {levels : List PriceLevel} {lvl : PriceLevel} {price qty : DoubleValue} :
    Quoted (levels ++ [lvl]) price qty ↔
      if price = lvl.price then qty = lvl.qty ∧ lvl.qty ≠ .finite 0 else Quoted levels price qty := by
  unfold Quoted
  rw [List.map_append, List.map_singleton, lastWrite_snoc]
  split
  · rename_i hsame
    constructor
    · intro h
      rcases h with ⟨⟨-, rfl⟩ | ⟨hne, -⟩, hqty⟩
      · exact ⟨rfl, hqty⟩
      · exact absurd hsame hne
    · intro h
      obtain ⟨rfl, hqty⟩ := h
      exact ⟨Or.inl ⟨hsame, rfl⟩, hqty⟩
  · rename_i hne
    constructor
    · intro h
      rcases h with ⟨⟨hsame, -⟩ | ⟨-, hlast⟩, hqty⟩
      · exact absurd hsame hne
      · exact ⟨hlast, hqty⟩
    · intro h
      exact ⟨Or.inr ⟨hne, h.1⟩, h.2⟩

/-! ## The book -/

/-- The side has the quoted quantities. -/
def Shows (side : SortedMap Extended DoubleValue) (levels : List PriceLevel) : Prop :=
  ∀ price qty, Quoted levels price qty ↔ ∃ x, price = .number x ∧ side.lookup x = some qty

theorem shows_empty : Shows .empty [] := by
  intro price qty
  constructor
  · intro h
    exact absurd h.1 not_lastWrite_nil
  · intro h
    obtain ⟨x, -, hx⟩ := h
    cases hx

/-- A key of the side is a quoted price. -/
theorem Shows.lookup {side : SortedMap Extended DoubleValue} {levels : List PriceLevel}
    (h : Shows side levels) {x : Extended} {qty : DoubleValue} (hx : side.lookup x = some qty) :
    Quoted levels (.number x) qty := (h _ _).mpr ⟨x, rfl, hx⟩

/-- One pass of the loop over a side's levels. -/
theorem Shows.step {side news : SortedMap Extended DoubleValue} {levels : List PriceLevel}
    (h : Shows side levels) {lvl : PriceLevel} (happly : applyLevel side lvl = some news) :
    Shows news (levels ++ [lvl]) := by
  unfold applyLevel at happly
  cases hprice : lvl.price with
  | nan => simp [hprice] at happly
  | number p =>
    simp only [hprice, Option.some.injEq] at happly
    subst happly
    intro price qty
    rw [quoted_snoc, hprice]
    by_cases hsame : price = .number p
    · subst hsame
      rw [if_pos rfl]
      by_cases hzero : lvl.qty = .finite 0
      · simp [hzero, SortedMap.lookup_erase]
      · simp [hzero, SortedMap.lookup_insert, eq_comm]
    · rw [if_neg hsame, h price qty]
      have hother : ∀ x, price = .number x → x ≠ p := by
        intro x hx hxp
        exact hsame (hxp ▸ hx)
      by_cases hzero : lvl.qty = .finite 0
      · rw [if_pos hzero]
        refine exists_congr fun x => and_congr_right fun hx => ?_
        rw [SortedMap.lookup_erase, if_neg (hother x hx)]
      · rw [if_neg hzero]
        refine exists_congr fun x => and_congr_right fun hx => ?_
        rw [SortedMap.lookup_insert, if_neg (hother x hx)]

theorem Shows.foldlM {side after : SortedMap Extended DoubleValue} {levels news : List PriceLevel}
    (h : Shows side levels) (happly : news.foldlM applyLevel side = some after) :
    Shows after (levels ++ news) := by
  induction news generalizing side levels with
  | nil =>
    cases happly
    rw [List.append_nil]
    exact h
  | cons lvl news ih =>
    rw [List.foldlM_cons] at happly
    obtain ⟨next, hnext, hrest⟩ := Option.bind_eq_some_iff.mp happly
    have hstep := ih (h.step hnext) hrest
    rw [List.append_assoc] at hstep
    exact hstep

/-- The book is what the messages say. -/
structure Booked (book : OrderBook) (depths : List Depth) : Prop where
  bids : Shows book.bids (bidsOf depths)
  asks : Shows book.asks (asksOf depths)

theorem applyDeltas_spec {book after : OrderBook} {bids asks : List PriceLevel} {updateId : Int}
    (h : book.applyDeltas bids asks updateId = some after) :
    bids.foldlM applyLevel book.bids = some after.bids ∧
      asks.foldlM applyLevel book.asks = some after.asks ∧ after.lastUpdateId = updateId := by
  unfold OrderBook.applyDeltas at h
  obtain ⟨bidSide, hbids, h⟩ := Option.bind_eq_some_iff.mp h
  obtain ⟨askSide, hasks, h⟩ := Option.bind_eq_some_iff.mp h
  cases h
  exact ⟨hbids, hasks, rfl⟩

theorem Booked.applyDeltas {book after : OrderBook} {depths : List Depth} (h : Booked book depths)
    {depth : Depth} (happly : book.applyDeltas depth.bids depth.asks depth.updateId = some after) :
    Booked after (depths ++ [depth]) := by
  obtain ⟨hbids, hasks, -⟩ := applyDeltas_spec happly
  constructor
  · have hside := h.bids.foldlM hbids
    simpa [bidsOf] using hside
  · have hside := h.asks.foldlM hasks
    simpa [asksOf] using hside

/-- No price of the levels is NaN. -/
def Ordered (levels : List PriceLevel) : Prop := ∀ lvl ∈ levels, lvl.price ≠ .nan

instance (levels : List PriceLevel) : Decidable (Ordered levels) :=
  inferInstanceAs (Decidable (∀ lvl ∈ levels, lvl.price ≠ .nan))

theorem foldlM_isSome {levels : List PriceLevel} (h : Ordered levels)
    (side : SortedMap Extended DoubleValue) : ∃ after, levels.foldlM applyLevel side = some after := by
  induction levels generalizing side with
  | nil => exact ⟨side, rfl⟩
  | cons lvl levels ih =>
    rw [List.foldlM_cons]
    cases hprice : lvl.price with
    | nan => exact absurd hprice (h lvl List.mem_cons_self)
    | number p =>
      simp only [applyLevel, hprice]
      exact ih (fun lvl hlvl => h lvl (List.mem_cons_of_mem _ hlvl)) _

theorem applyDeltas_isSome {bids asks : List PriceLevel} (hbids : Ordered bids) (hasks : Ordered asks)
    (book : OrderBook) (updateId : Int) : ∃ after, book.applyDeltas bids asks updateId = some after := by
  obtain ⟨bidSide, hbid⟩ := foldlM_isSome hbids book.bids
  obtain ⟨askSide, hask⟩ := foldlM_isSome hasks book.asks
  exact ⟨⟨bidSide, askSide, updateId⟩, by simp [OrderBook.applyDeltas, hbid, hask]⟩

/-- `best` fails when a side is empty. -/
theorem Booked.not_twoSided {book : OrderBook} {depths : List Depth} (h : Booked book depths)
    (hbest : book.best = none) : ¬ TwoSided depths := by
  intro htwo
  obtain ⟨⟨bid, bidQty, hbid⟩, ask, askQty, hask⟩ := htwo
  obtain ⟨bid, -, hbid⟩ := (h.bids _ _).mp hbid
  obtain ⟨ask, -, hask⟩ := (h.asks _ _).mp hask
  unfold OrderBook.best at hbest
  cases hlast : book.bids.last? with
  | none => simp [SortedMap.lookup_of_last?_none hlast] at hbid
  | some best =>
    cases hfirst : book.asks.first? with
    | none => simp [SortedMap.lookup_of_first?_none hfirst] at hask
    | some best => simp [hlast, hfirst] at hbest

theorem Booked.tellsBest {book : OrderBook} {depths : List Depth} (h : Booked book depths)
    {best : BestBidAsk} (hbest : book.best = some best)
    (hseq : depths.getLast?.map Depth.updateId = some book.lastUpdateId) (symbol : String) :
    TellsBest symbol depths (marketEvent symbol best) := by
  unfold OrderBook.best at hbest
  split at hbest
  · rename_i bid ask hlast hfirst
    cases hbest
    obtain ⟨hbid, hhighest⟩ := SortedMap.last?_spec hlast
    obtain ⟨hask, hlowest⟩ := SortedMap.first?_spec hfirst
    refine ⟨rfl, ⟨bid.2, ask.2, h.bids.lookup hbid, h.asks.lookup hask, rfl⟩, ?_, ?_, hseq⟩
    · intro price qty hquoted
      obtain ⟨x, rfl, hx⟩ := (h.bids _ _).mp hquoted
      exact decide_eq_true (hhighest x qty hx)
    · intro price qty hquoted
      obtain ⟨x, rfl, hx⟩ := (h.asks _ _).mp hquoted
      exact decide_eq_true (hlowest x qty hx)
  · cases hbest

/-! ## The run -/

/-- The event that is about to be offered. -/
def pendingEvent : Pc → List (MarketEvent DoubleValue)
  | .publishing evt => [evt]
  | _ => []

/-- The line that is about to be logged. -/
def pendingLine : Pc → List String
  | .logging msg _ => [msg]
  | _ => []

/-- The lines that `log` is to be called with after the first one. -/
def lines (lib : Libraries) (trace : List Event) : List String :=
  trace.filterMap fun
    | .read payload =>
        match decode lib payload with
        | .error what => some ("parse error: " ++ what)
        | .ok _ => none
    | .offered evt false => some ("drop market evt seq=" ++ toString evt.seq)
    | .disconnected what => some ("binance error: " ++ what)
    | _ => none

/-- An event is dropped only when 1023 others wait. -/
def DroppedWhenFull (before : List Event) (e : Event) : Prop :=
  ∀ evt, e = .offered evt false → (published before).length = (popped before).length + 1023

/-- A line is refused only when 1023 others wait for the logger. -/
def RefusedWhenFull (before : List Event) (e : Event) : Prop :=
  ∀ msg, e = .logged msg false → (queued before).length = (drained before).length + 1023

theorem DroppedWhenFull.of_ne {before : List Event} {e : Event} (h : ∀ evt, e ≠ .offered evt false) :
    DroppedWhenFull before e := fun evt he => absurd he (h evt)

variable {lib : Libraries} {s t : Connector} {a : Action} {trace seen : List Event}
  {symbol opening : String}

theorem RefusedWhenFull.of_ne {before : List Event} {e : Event} (h : ∀ msg, e ≠ .logged msg false) :
    RefusedWhenFull before e := fun msg he => absurd he (h msg)

/-- A push is taken, or 1023 elements wait. -/
theorem contents_of_push {T : Type} {q after : SpscQueue T 10} {x : T} {taken : Bool}
    (hpush : SpscQueue.push q x = (after, taken)) :
    (taken = true ∧ after.contents = q.contents ++ [x]) ∨
      (taken = false ∧ after.contents = q.contents ∧ q.contents.length = 1023) := by
  obtain ⟨hroom, hcontents⟩ := q.push_spec x
  have hresult : SPSCRing.push q x = (after, taken) := hpush
  rw [hresult] at hroom hcontents
  cases taken with
  | true => exact Or.inl ⟨rfl, by simpa using hcontents⟩
  | false =>
    have hfull := of_decide_eq_false hroom.symm
    have hlt := q.contents_length_lt
    simp only [SPSCRing.capacity] at hfull hlt
    exact Or.inr ⟨rfl, by simpa using hcontents, by omega⟩

@[simp] theorem accepted_append :
    accepted lib (trace ++ seen) = accepted lib trace ++ accepted lib seen :=
  List.filterMap_append

@[simp] theorem offered_append : offered (trace ++ seen) = offered trace ++ offered seen :=
  List.filterMap_append

@[simp] theorem published_append : published (trace ++ seen) = published trace ++ published seen :=
  List.filterMap_append

@[simp] theorem popped_append : popped (trace ++ seen) = popped trace ++ popped seen :=
  List.filterMap_append

@[simp] theorem logged_append : logged (trace ++ seen) = logged trace ++ logged seen :=
  List.filterMap_append

@[simp] theorem queued_append : queued (trace ++ seen) = queued trace ++ queued seen :=
  List.filterMap_append

@[simp] theorem drained_append : drained (trace ++ seen) = drained trace ++ drained seen :=
  List.filterMap_append

@[simp] theorem lines_append : lines lib (trace ++ seen) = lines lib trace ++ lines lib seen :=
  List.filterMap_append

/-- The two queues, what went into them and what came out, and what they refused. -/
structure Queues (s : Connector) (trace : List Event) : Prop where
  market : published trace = popped trace ++ s.outbound.contents
  dropped : Each DroppedWhenFull trace
  log : queued trace = drained trace ++ s.logQueue.contents.map LogEvent.message
  refused : Each RefusedWhenFull trace

structure Inv (lib : Libraries) (symbol opening : String) (s : Connector) (trace : List Event) :
    Prop where
  named : s.symbol = symbol
  booked : Booked s.book (accepted lib trace)
  reports : Reports symbol (accepted lib trace) (offered trace ++ pendingEvent s.pc)
  lines : opening :: lines lib trace = logged trace ++ pendingLine s.pc
  queues : Queues s trace
  defined : s.pc ≠ .undefined

/-- An event of neither queue. -/
theorem Queues.other (h : Queues s trace) {e : Event} (houtbound : t.outbound = s.outbound)
    (hlog : t.logQueue = s.logQueue) (hpublished : published [e] = []) (hpopped : popped [e] = [])
    (hqueued : queued [e] = []) (hdrained : drained [e] = [])
    (hdropped : ∀ evt, e ≠ .offered evt false) (hrefused : ∀ msg, e ≠ .logged msg false) :
    Queues t (trace ++ [e]) where
  market := by rw [published_append, popped_append, hpublished, hpopped, List.append_nil,
    List.append_nil, houtbound, h.market]
  dropped := each_snoc_iff.mpr ⟨h.dropped, .of_ne hdropped⟩
  log := by rw [queued_append, drained_append, hqueued, hdrained, List.append_nil, List.append_nil,
    hlog, h.log]
  refused := each_snoc_iff.mpr ⟨h.refused, .of_ne hrefused⟩

theorem inv_start (symbol : String) (slots : Fin (2 ^ 10) → MarketEvent DoubleValue)
    (logSlots : Fin (2 ^ 10) → LogEvent) :
    Inv lib (symbol.map Char.toLower)
      ("connected to /ws/" ++ symbol.map Char.toLower ++ "@depth5@100ms")
      (start symbol slots logSlots) [] := by
  constructor
  · rfl
  · exact ⟨shows_empty, shows_empty⟩
  · exact .start
  · rfl
  · exact ⟨by simp [start, published, popped], each_nil, by simp [start, queued, drained], each_nil⟩
  · simp [start]

/-- A message that cannot be read calls for a line of the log and nothing else. -/
theorem Inv.readRefused (inv : Inv lib symbol opening s trace) (hpc : s.pc = .reading)
    {payload what : String} (hdecode : decode lib payload = .error what) :
    Inv lib symbol opening (handleMessage lib s payload) (trace ++ [.read payload]) := by
  have haccepted : accepted lib [.read payload] = [] := by
    simp [accepted, hdecode, Except.toOption]
  have hline : DepthPublication.lines lib [.read payload] = ["parse error: " ++ what] := by
    simp [DepthPublication.lines, hdecode]
  have hreports := inv.reports
  have hlines := inv.lines
  rw [hpc] at hreports hlines
  simp only [handleMessage, hdecode]
  constructor
  · exact inv.named
  · rw [accepted_append, haccepted, List.append_nil]
    exact inv.booked
  · rw [accepted_append, haccepted, List.append_nil]
    simpa [offered, pendingEvent] using hreports
  · rw [lines_append, hline, ← List.cons_append, hlines]
    simp [logged, pendingLine]
  · exact inv.queues.other rfl rfl rfl rfl rfl rfl (by simp) (by simp)
  · simp

/-- The prices of a message that can be read are no NaN. -/
def PricesOrdered (lib : Libraries) (_ : Connector) : Action → Prop
  | .read payload => ∀ depth ∈ (decode lib payload).toOption, Ordered depth.bids ∧ Ordered depth.asks
  | _ => True

instance (s : Connector) (a : Action) : Decidable (PricesOrdered lib s a) := by
  unfold PricesOrdered
  split <;> infer_instance

/-- A message that can be read is booked, and calls for an event when both sides have a price. -/
theorem Inv.readAccepted (inv : Inv lib symbol opening s trace) (hpc : s.pc = .reading)
    {payload : String} {depth : Depth} (hdecode : decode lib payload = .ok depth)
    (hordered : Ordered depth.bids ∧ Ordered depth.asks) :
    Inv lib symbol opening (handleMessage lib s payload) (trace ++ [.read payload]) := by
  have haccepted : accepted lib (trace ++ [.read payload]) = accepted lib trace ++ [depth] := by
    simp [accepted, hdecode, Except.toOption]
  have hline : DepthPublication.lines lib [.read payload] = [] := by
    simp [DepthPublication.lines, hdecode]
  obtain ⟨book, happly⟩ := applyDeltas_isSome hordered.1 hordered.2 s.book depth.updateId
  have hbooked := inv.booked.applyDeltas happly
  have hseq : book.lastUpdateId = depth.updateId := (applyDeltas_spec happly).2.2
  have hlines := inv.lines
  have hreports := inv.reports
  rw [hpc] at hlines hreports
  simp only [pendingEvent, List.append_nil] at hreports
  have hlog : opening :: DepthPublication.lines lib (trace ++ [.read payload]) =
      logged (trace ++ [.read payload]) := by
    rw [lines_append, hline, List.append_nil, hlines]
    simp [logged, pendingLine]
  have hoffered : offered (trace ++ [.read payload]) = offered trace := by simp [offered]
  simp only [handleMessage, hdecode, happly]
  split
  · rename_i hbest
    refine ⟨inv.named, by rwa [haccepted], ?_, by simpa [pendingLine] using hlog,
      inv.queues.other rfl rfl rfl rfl rfl rfl (by simp) (by simp), by simp⟩
    rw [haccepted, hoffered]
    simpa [pendingEvent] using hreports.quiet depth (hbooked.not_twoSided hbest)
  · rename_i best hbest
    refine ⟨inv.named, by rwa [haccepted], ?_, by simpa [pendingLine] using hlog,
      inv.queues.other rfl rfl rfl rfl rfl rfl (by simp) (by simp), by simp⟩
    rw [haccepted, hoffered, inv.named]
    exact hreports.best (hbooked.tellsBest hbest (by simp [hseq]) symbol)

/-- The market queue takes the event, or is full. -/
theorem Queues.publish (h : Queues s trace) {evt : MarketEvent DoubleValue} {taken : Bool}
    {outbound : MarketQueue DoubleValue} (hpush : SpscQueue.push s.outbound evt = (outbound, taken))
    (houtbound : t.outbound = outbound) (hlog : t.logQueue = s.logQueue) :
    Queues t (trace ++ [.offered evt taken]) := by
  obtain ⟨rfl, hcontents⟩ | ⟨rfl, hcontents, hlength⟩ := contents_of_push hpush
  · refine ⟨?_, each_snoc_iff.mpr ⟨h.dropped, .of_ne (by simp)⟩, ?_,
      each_snoc_iff.mpr ⟨h.refused, .of_ne (by simp)⟩⟩
    · rw [published_append, popped_append, h.market, houtbound, hcontents]
      simp [published, popped]
    · rw [hlog]
      simpa [queued, drained] using h.log
  · have hfull : (published trace).length = (popped trace).length + 1023 := by
      rw [h.market, List.length_append, hlength]
    refine ⟨?_, each_snoc_iff.mpr ⟨h.dropped, fun _ _ => hfull⟩, ?_,
      each_snoc_iff.mpr ⟨h.refused, .of_ne (by simp)⟩⟩
    · rw [published_append, popped_append, h.market, houtbound, hcontents]
      simp [published, popped]
    · rw [hlog]
      simpa [queued, drained] using h.log

/-- The log queue takes the line, or is full. -/
theorem Queues.logLine (h : Queues s trace) {msg : String} {now : Int} {taken : Bool}
    {queue : LogQueue} (hpush : SpscQueue.push s.logQueue ⟨"binance", msg, now⟩ = (queue, taken))
    (houtbound : t.outbound = s.outbound) (hlog : t.logQueue = queue) :
    Queues t (trace ++ [.logged msg taken]) := by
  obtain ⟨rfl, hcontents⟩ | ⟨rfl, hcontents, hlength⟩ := contents_of_push hpush
  · refine ⟨?_, each_snoc_iff.mpr ⟨h.dropped, .of_ne (by simp)⟩, ?_,
      each_snoc_iff.mpr ⟨h.refused, .of_ne (by simp)⟩⟩
    · rw [houtbound]
      simpa [published, popped] using h.market
    · rw [queued_append, drained_append, h.log, hlog, hcontents]
      simp [queued, drained]
  · have hfull : (queued trace).length = (drained trace).length + 1023 := by
      rw [h.log, List.length_append, List.length_map, hlength]
    refine ⟨?_, each_snoc_iff.mpr ⟨h.dropped, .of_ne (by simp)⟩, ?_,
      each_snoc_iff.mpr ⟨h.refused, fun _ _ => hfull⟩⟩
    · rw [houtbound]
      simpa [published, popped] using h.market
    · rw [queued_append, drained_append, h.log, hlog, hcontents]
      simp [queued, drained]

theorem Inv.publish (inv : Inv lib symbol opening s trace)
    (hstep : step lib s .publish = some (t, seen)) : Inv lib symbol opening t (trace ++ seen) := by
  simp only [BinanceDepth.step] at hstep
  cases hpc : s.pc with
  | publishing evt =>
    have hreports := inv.reports
    have hlines := inv.lines
    rw [hpc] at hreports hlines
    simp only [hpc] at hstep
    cases hpush : SpscQueue.push s.outbound evt with
    | mk outbound taken =>
      rw [hpush] at hstep
      cases taken with
      | true =>
        cases hstep
        refine ⟨inv.named, ?_, ?_, ?_, inv.queues.publish hpush rfl rfl, by simp⟩
        · simpa [accepted] using inv.booked
        · simpa [accepted, offered, pendingEvent] using hreports
        · simpa [DepthPublication.lines, logged, pendingLine] using hlines
      | false =>
        cases hstep
        refine ⟨inv.named, ?_, ?_, ?_, inv.queues.publish hpush rfl rfl, by simp⟩
        · simpa [accepted] using inv.booked
        · simpa [accepted, offered, pendingEvent] using hreports
        · rw [lines_append, ← List.cons_append, hlines]
          simp [DepthPublication.lines, logged, pendingLine]
  | _ => simp [hpc] at hstep

theorem Inv.log (inv : Inv lib symbol opening s trace) {now : Int}
    (hstep : step lib s (.log now) = some (t, seen)) :
    Inv lib symbol opening t (trace ++ seen) := by
  simp only [BinanceDepth.step] at hstep
  cases hpc : s.pc with
  | logging msg last =>
    have hreports := inv.reports
    have hlines := inv.lines
    rw [hpc] at hreports hlines
    simp only [hpc] at hstep
    cases hstep
    have hquiet : pendingEvent (if last then Pc.finished else .test) = [] ∧
        pendingLine (if last then Pc.finished else .test) = [] ∧
        (if last then Pc.finished else .test) ≠ .undefined := by
      cases last <;> simp [pendingEvent, pendingLine]
    refine ⟨inv.named, ?_, ?_, ?_, inv.queues.logLine rfl rfl rfl, hquiet.2.2⟩
    · simpa [accepted] using inv.booked
    · rw [hquiet.1]
      simpa [accepted, offered, pendingEvent] using hreports
    · rw [hquiet.2.1]
      simpa [DepthPublication.lines, logged, pendingLine] using hlines
  | _ => simp [hpc] at hstep

theorem Inv.popMarket (inv : Inv lib symbol opening s trace)
    (hstep : step lib s .popMarket = some (t, seen)) :
    Inv lib symbol opening t (trace ++ seen) := by
  simp only [BinanceDepth.step] at hstep
  have hqueues := inv.queues
  obtain ⟨outbound, ⟨hpop, hcontents, -⟩ | ⟨evt, hpop, hcontents⟩⟩ := SpscQueue.pop_cases s.outbound
  · rw [hpop] at hstep
    cases hstep
    rw [List.append_nil]
    exact ⟨inv.named, inv.booked, inv.reports, inv.lines,
      ⟨by rw [hcontents]; exact hqueues.market, hqueues.dropped, hqueues.log, hqueues.refused⟩,
      inv.defined⟩
  · rw [hpop] at hstep
    cases hstep
    refine ⟨inv.named, ?_, ?_, ?_, ⟨?_, ?_, ?_, ?_⟩, inv.defined⟩
    · simpa [accepted] using inv.booked
    · simpa [accepted, offered] using inv.reports
    · simpa [DepthPublication.lines, logged] using inv.lines
    · have hmarket := hqueues.market
      rw [hcontents] at hmarket
      simp only [published_append, popped_append, hmarket]
      simp [published, popped]
    · exact each_snoc_iff.mpr ⟨hqueues.dropped, .of_ne (by simp)⟩
    · simpa [queued, drained] using hqueues.log
    · exact each_snoc_iff.mpr ⟨hqueues.refused, .of_ne (by simp)⟩

theorem Inv.popLog (inv : Inv lib symbol opening s trace)
    (hstep : step lib s .popLog = some (t, seen)) :
    Inv lib symbol opening t (trace ++ seen) := by
  simp only [BinanceDepth.step] at hstep
  have hqueues := inv.queues
  obtain ⟨queue, ⟨hpop, hcontents, -⟩ | ⟨line, hpop, hcontents⟩⟩ := SpscQueue.pop_cases s.logQueue
  · rw [hpop] at hstep
    cases hstep
    rw [List.append_nil]
    exact ⟨inv.named, inv.booked, inv.reports, inv.lines,
      ⟨hqueues.market, hqueues.dropped, by rw [hcontents]; exact hqueues.log, hqueues.refused⟩,
      inv.defined⟩
  · rw [hpop] at hstep
    cases hstep
    refine ⟨inv.named, ?_, ?_, ?_, ⟨?_, ?_, ?_, ?_⟩, inv.defined⟩
    · simpa [accepted] using inv.booked
    · simpa [accepted, offered] using inv.reports
    · simpa [DepthPublication.lines, logged] using inv.lines
    · simpa [published, popped] using hqueues.market
    · exact each_snoc_iff.mpr ⟨hqueues.dropped, .of_ne (by simp)⟩
    · have hlog := hqueues.log
      rw [hcontents] at hlog
      simp only [queued_append, drained_append, hlog]
      simp [queued, drained]
    · exact each_snoc_iff.mpr ⟨hqueues.refused, .of_ne (by simp)⟩

theorem Inv.step (inv : Inv lib symbol opening s trace) (hordered : PricesOrdered lib s a)
    (hstep : BinanceDepth.step lib s a = some (t, seen)) :
    Inv lib symbol opening t (trace ++ seen) := by
  cases a with
  | again =>
    simp only [BinanceDepth.step] at hstep
    cases hpc : s.pc with
    | test =>
      have hreports := inv.reports
      have hlines := inv.lines
      rw [hpc] at hreports hlines
      simp only [hpc] at hstep
      cases hstep
      rw [List.append_nil]
      refine ⟨inv.named, inv.booked, ?_, ?_, ⟨inv.queues.market, inv.queues.dropped,
        inv.queues.log, inv.queues.refused⟩, ?_⟩
      · cases s.running <;> exact hreports
      · cases s.running <;> exact hlines
      · cases s.running <;> simp
    | _ => simp [hpc] at hstep
  | read payload =>
    simp only [BinanceDepth.step] at hstep
    cases hpc : s.pc with
    | reading =>
      simp only [hpc] at hstep
      cases hstep
      cases hdecode : decode lib payload with
      | error what => exact inv.readRefused hpc hdecode
      | ok depth => exact inv.readAccepted hpc hdecode (hordered depth (by simp [hdecode, Except.toOption]))
    | _ => simp [hpc] at hstep
  | readFails what =>
    simp only [BinanceDepth.step] at hstep
    cases hpc : s.pc with
    | reading =>
      have hreports := inv.reports
      have hlines := inv.lines
      rw [hpc] at hreports hlines
      simp only [hpc] at hstep
      cases hstep
      refine ⟨inv.named, ?_, ?_, ?_, inv.queues.other rfl rfl rfl rfl rfl rfl (by simp) (by simp), by simp⟩
      · simpa [accepted] using inv.booked
      · simpa [accepted, offered, pendingEvent] using hreports
      · rw [lines_append, ← List.cons_append, hlines]
        simp [DepthPublication.lines, logged, pendingLine]
    | _ => simp [hpc] at hstep
  | publish => exact inv.publish hstep
  | log now => exact inv.log hstep
  | popMarket => exact inv.popMarket hstep
  | popLog => exact inv.popLog hstep
  | stop =>
    cases hstep
    rw [List.append_nil]
    exact ⟨inv.named, inv.booked, inv.reports, inv.lines, ⟨inv.queues.market, inv.queues.dropped,
      inv.queues.log, inv.queues.refused⟩, inv.defined⟩

/-- In every run whose messages have no NaN for a price the events offered to the shard are those
that the messages call for, each told once and in order; the shard gets them in order, less the
ones that met a full queue; each message refused, event dropped and lost connection makes `log`
be called with its line, and the logger gets these lines in order, less the ones that met a full
queue. -/
theorem depth_published_best {slots : Fin (2 ^ 10) → MarketEvent DoubleValue}
    {logSlots : Fin (2 ^ 10) → LogEvent} {actions : List Action}
    (run : (machine lib).Run (start symbol slots logSlots) actions t trace)
    (ordered : (machine lib).StepsMeet (PricesOrdered lib) (start symbol slots logSlots) actions) :
    Reports (symbol.map Char.toLower) (accepted lib trace) (offered trace ++ pendingEvent t.pc) ∧
      ("connected to /ws/" ++ symbol.map Char.toLower ++ "@depth5@100ms") :: lines lib trace =
        logged trace ++ pendingLine t.pc ∧
      Queues t trace ∧ t.pc ≠ .undefined := by
  have inv := run.invariant_of_steps (I := Inv lib _ _) (inv_start symbol slots logSlots)
    (fun inv hordered hstep => inv.step hordered hstep) ordered
  exact ⟨inv.reports, inv.lines, inv.queues, inv.defined⟩

/-- The libraries on the texts of `twoMessages`. -/
def sampleLibraries : Libraries where
  parse text :=
    if text = "[]" then .ok (.array [])
    else .ok (.object [("u", .int64 7),
      ("b", .array [.array [.string "3", .string "5"], .array [.string "inf", .string "5"]]),
      ("a", .array [.array [.string "5", .string "nan"], .array [.string "3", .string "0"]])])
  stod text :=
    if text = "0" then .ok (.finite 0) else if text = "3" then .ok (.finite 3)
    else if text = "5" then .ok (.finite 5) else if text = "inf" then .ok (.number ⊤) else .ok .nan
  notObject := "value is not an object"
  notArray := "value is not an array"
  notString := "value is not a string"
  notInt64 := "value is not an int64 number"
  noMember := "out of range"
  noItem := "out of range"

/-- A message with two bids, an ask and a price taken back, and one that is no object. -/
def twoMessages : List Action :=
  [.log 0, .again,
    .read "\x7b\"u\":7,\"b\":[[\"3\",\"5\"],[\"inf\",\"5\"]],\"a\":[[\"5\",\"nan\"],[\"3\",\"0\"]]\x7d",
    .publish, .again, .read "[]", .popMarket, .log 1, .popLog]

theorem depth_published_best_two_messages :
    ∃ t trace, (machine sampleLibraries).Run
      (start "BtcUsdt" (fun _ => ⟨"", .nan, .nan, .nan, 0⟩) fun _ => ⟨"", "", 0⟩) twoMessages t trace ∧
      Reports ("BtcUsdt".map Char.toLower) (accepted sampleLibraries trace)
        (offered trace ++ pendingEvent t.pc) ∧
      popped trace = [⟨"btcusdt", .number ⊤, .finite 5, .finite 5, 7⟩] ∧
      logged trace =
        ["connected to /ws/btcusdt@depth5@100ms", "parse error: value is not an object"] := by
  have run := (machine sampleLibraries).run_of_isSome
    (start "BtcUsdt" (fun _ => ⟨"", .nan, .nan, .nan, 0⟩) fun _ => ⟨"", "", 0⟩) twoMessages
    (by decide +kernel)
  obtain ⟨hreports, -, -, -⟩ := depth_published_best run (by decide +kernel)
  exact ⟨_, _, run, hreports, by decide +kernel, by decide +kernel⟩

end CppCodes.Guarantees.DepthPublication
