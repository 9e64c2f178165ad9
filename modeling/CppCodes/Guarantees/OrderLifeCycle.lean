import CppCodes.Source.HftTest.OmsEngine

/-!
# The life cycle of an order

`parse_exec_reports` writes the state and adds the quantity of a report of any
kind to the entry it finds, whatever the entry says already. `Admissible` is what a
step has to meet for the entries to keep to their life cycle, in every run of the
thread and with any octets from the peer.
-/

set_option autoImplicit false

namespace CppCodes.Guarantees.OrderLifeCycle

open CppCodes.Library
open CppCodes.Source.HftTest
open CppCodes.Source.HftTest.OmsEngine

abbrev Orders := Finmap fun _ : UInt64 => OrderState

/-- `0 <= filled <= qty` in every entry. -/
def Within (orders : Orders) : Prop :=
  ∀ id st, orders.lookup id = some st → 0 ≤ st.filled.toInt ∧ st.filled.toInt ≤ st.qty.toInt

/-- What may become of an entry. -/
structure Advances (st st' : OrderState) : Prop where
  filled : st.filled.toInt ≤ st'.filled.toInt
  frozen : st.state.terminal = true → st'.state = st.state ∧ st'.filled = st.filled

/-- Every entry of the first map is still there and has only advanced. -/
def Later (before after : Orders) : Prop :=
  ∀ id st, before.lookup id = some st → ∃ st', after.lookup id = some st' ∧ Advances st st'

/-- From any point of the run to any later one. -/
def LifeCycle (start : State) (actions : List Action) : Prop :=
  ∀ first middle last, actions = first ++ (middle ++ last) →
    ∀ s before, machine.Run start first s before → ∀ u during, machine.Run s middle u during →
      Within u.engine.orders ∧ Later s.engine.orders u.engine.orders

/-- The report stays within the order, and an order that has ended hears the same
end again, without a quantity, or nothing. -/
def Admits (st : OrderState) (ex : ExecUpdate) : Prop :=
  0 ≤ ex.fillQty.toInt ∧ st.filled.toInt + ex.fillQty.toInt ≤ st.qty.toInt ∧
    (st.state.terminal = true → ex.execType = st.state ∧ ex.fillQty = 0)

/-- The report that `parse_exec_reports` finds next, if there is a valid one. -/
def reportIn (s : State) (now : Int64) : Option ExecUpdate :=
  match splitFrame (unread s) with
  | none => none
  | some (data, _) => execUpdateOf data now

/-- An order has a quantity that is not negative and an id under which nothing has
been filled or has ended; a report is one that the entry it finds admits. -/
def Admissible (s : State) : Action → Prop
  | .order req _ _ => 0 ≤ req.qty.toInt ∧
      ∀ st ∈ s.engine.orders.lookup s.engine.nextClordid,
        st.filled = 0 ∧ st.state.terminal = false
  | .parse now => ∀ ex ∈ reportIn s now, ∀ st ∈ s.engine.orders.lookup ex.clOrdId, Admits st ex
  | .send _ | .recv _ | .popExec => True

instance (st : OrderState) (ex : ExecUpdate) : Decidable (Admits st ex) := instDecidableAnd

instance (s : State) : ∀ a, Decidable (Admissible s a)
  | .order req _ _ => inferInstanceAs (Decidable (0 ≤ req.qty.toInt ∧
      ∀ st ∈ s.engine.orders.lookup s.engine.nextClordid,
        st.filled = 0 ∧ st.state.terminal = false))
  | .parse now => inferInstanceAs (Decidable (∀ ex ∈ reportIn s now,
      ∀ st ∈ s.engine.orders.lookup ex.clOrdId, Admits st ex))
  | .send _ | .recv _ | .popExec => isTrue trivial

/-! ## Entries -/

theorem Advances.refl (st : OrderState) : Advances st st := ⟨le_refl _, fun _ => ⟨rfl, rfl⟩⟩

theorem Advances.trans {st st' st'' : OrderState} (h : Advances st st') (h' : Advances st' st'') :
    Advances st st'' := by
  refine ⟨h.filled.trans h'.filled, ?_⟩
  intro hterminal
  obtain ⟨hstate, hfilled⟩ := h.frozen hterminal
  obtain ⟨hstate', hfilled'⟩ := h'.frozen (by rw [hstate]; exact hterminal)
  exact ⟨hstate'.trans hstate, hfilled'.trans hfilled⟩

theorem Later.refl (orders : Orders) : Later orders orders :=
  fun _ st hst => ⟨st, hst, Advances.refl st⟩

theorem Later.trans {before between after : Orders} (h : Later before between)
    (h' : Later between after) : Later before after := by
  intro id st hst
  obtain ⟨st', hst', hadvances⟩ := h id st hst
  obtain ⟨st'', hst'', hadvances'⟩ := h' id st' hst'
  exact ⟨st'', hst'', hadvances.trans hadvances'⟩

/-- Where one entry is written, the law is about this entry. -/
theorem insert_iff {orders : Orders} (h : Within orders) (id : UInt64) (new : OrderState) :
    (Within (orders.insert id new) ∧ Later orders (orders.insert id new)) ↔
      (0 ≤ new.filled.toInt ∧ new.filled.toInt ≤ new.qty.toInt) ∧
        ∀ st ∈ orders.lookup id, Advances st new := by
  constructor
  · intro ⟨hwithin, hlater⟩
    refine ⟨hwithin id new (Finmap.lookup_insert _), ?_⟩
    intro st hst
    obtain ⟨st', hst', hadvances⟩ := hlater id st hst
    rw [Finmap.lookup_insert] at hst'
    cases hst'
    exact hadvances
  · intro ⟨hnew, hadvances⟩
    refine ⟨?_, ?_⟩
    · intro id' st hst
      by_cases he : id' = id
      · rw [he, Finmap.lookup_insert] at hst
        cases hst
        exact hnew
      · rw [Finmap.lookup_insert_of_ne _ he] at hst
        exact h id' st hst
    · intro id' st hst
      by_cases he : id' = id
      · subst he
        exact ⟨new, Finmap.lookup_insert _, hadvances st hst⟩
      · exact ⟨st, by rw [Finmap.lookup_insert_of_ne _ he, hst], Advances.refl st⟩

/-- A sum that leaves the range of `int64_t` would come out negative. -/
theorem add_within_iff {filled added qty : Int64} (hfilled : 0 ≤ filled.toInt) :
    (filled.toInt ≤ (filled + added).toInt ∧ (filled + added).toInt ≤ qty.toInt) ↔
      0 ≤ added.toInt ∧ filled.toInt + added.toInt ≤ qty.toInt := by
  have hmax : qty.toInt ≤ Int64.maxValue.toInt := qty.toInt_le
  have hmin : Int64.minValue.toInt ≤ added.toInt := added.minValue_le_toInt
  have hadded : added.toInt ≤ Int64.maxValue.toInt := added.toInt_le
  have hfits : filled.toInt ≤ Int64.maxValue.toInt := filled.toInt_le
  rw [Int64.toInt_maxValue] at hmax hadded hfits
  rw [Int64.toInt_minValue] at hmin
  rw [Int64.toInt_add]
  by_cases hsum : filled.toInt + added.toInt ≤ 2 ^ 63 - 1
  · rw [Int.bmod_eq_of_le (by omega) (by omega)]
    omega
  · have hwrap : (filled.toInt + added.toInt).bmod (2 ^ 64) =
        filled.toInt + added.toInt - 2 ^ 64 := by
      rw [Int.bmod_def]
      split <;> omega
    rw [hwrap]
    omega

/-! ## One step -/

theorem orders_registerOrder (o : OmsEngine) (req : OrderRequest) :
    (o.registerOrder req).orders = o.orders.insert o.nextClordid (orderState req .ack 0) := rfl

theorem register_iff {o : OmsEngine} (h : Within o.orders) (req : OrderRequest) :
    (Within (o.registerOrder req).orders ∧ Later o.orders (o.registerOrder req).orders) ↔
      0 ≤ req.qty.toInt ∧ ∀ st ∈ o.orders.lookup o.nextClordid,
        st.filled = 0 ∧ st.state.terminal = false := by
  rw [orders_registerOrder, insert_iff h]
  constructor
  · intro ⟨⟨_, hqty⟩, hadvances⟩
    refine ⟨hqty, ?_⟩
    intro st hst
    obtain ⟨hfilled, hfrozen⟩ := hadvances st hst
    obtain ⟨hnonneg, -⟩ := h _ st hst
    refine ⟨Int64.toInt_inj.mp (le_antisymm hfilled hnonneg), ?_⟩
    cases hterminal : st.state.terminal with
    | false => rfl
    | true =>
      have hstate : ExecType.ack = st.state := (hfrozen hterminal).1
      rw [← hstate] at hterminal
      cases hterminal
  · intro ⟨hqty, hfree⟩
    refine ⟨⟨le_refl _, hqty⟩, ?_⟩
    intro st hst
    obtain ⟨hfilled, hopen⟩ := hfree st hst
    refine ⟨by rw [hfilled]; exact le_refl _, ?_⟩
    intro hterminal
    rw [hopen] at hterminal
    cases hterminal

theorem updateEntry_iff {st : OrderState} (ex : ExecUpdate) (h : 0 ≤ st.filled.toInt) :
    ((0 ≤ (updateEntry st ex).filled.toInt ∧
        (updateEntry st ex).filled.toInt ≤ (updateEntry st ex).qty.toInt) ∧
      Advances st (updateEntry st ex)) ↔ Admits st ex := by
  have hsum : (st.filled.toInt ≤ (st.filled + ex.fillQty).toInt ∧
      (st.filled + ex.fillQty).toInt ≤ st.qty.toInt) ↔
      0 ≤ ex.fillQty.toInt ∧ st.filled.toInt + ex.fillQty.toInt ≤ st.qty.toInt :=
    add_within_iff h
  constructor
  · intro ⟨⟨_, hqty⟩, hfilled, hfrozen⟩
    obtain ⟨hadded, hwithin⟩ := hsum.mp ⟨hfilled, hqty⟩
    refine ⟨hadded, hwithin, ?_⟩
    intro hterminal
    obtain ⟨hstate, hsame⟩ := hfrozen hterminal
    have hzero : st.filled + ex.fillQty = st.filled + 0 := hsame.trans (Int64.add_zero _).symm
    exact ⟨hstate, (Int64.add_right_inj st.filled).mp hzero⟩
  · intro ⟨hadded, hwithin, hend⟩
    obtain ⟨hfilled, hqty⟩ := hsum.mpr ⟨hadded, hwithin⟩
    refine ⟨⟨h.trans hfilled, hqty⟩, hfilled, ?_⟩
    intro hterminal
    obtain ⟨hstate, hzero⟩ := hend hterminal
    refine ⟨hstate, ?_⟩
    show st.filled + ex.fillQty = st.filled
    rw [hzero]
    exact Int64.add_zero _

theorem report_iff {o : OmsEngine} (h : Within o.orders) (ex : ExecUpdate) :
    (Within (o.applyReport ex).orders ∧ Later o.orders (o.applyReport ex).orders) ↔
      ∀ st ∈ o.orders.lookup ex.clOrdId, Admits st ex := by
  unfold applyReport
  dsimp only
  cases hentry : o.orders.lookup ex.clOrdId with
  | none => exact iff_of_true ⟨h, Later.refl _⟩ fun st hst => by cases hst
  | some st =>
    dsimp only
    rw [insert_iff h, hentry]
    simp only [Option.mem_def, Option.some.injEq, forall_eq']
    exact updateEntry_iff ex (h _ st hentry).1

/-- One step keeps the law exactly when it is admissible. -/
theorem step_iff {s u : State} {a : Action} {seen : List Event} (h : Within s.engine.orders)
    (hstep : machine.step s a = some (u, seen)) :
    (Within u.engine.orders ∧ Later s.engine.orders u.engine.orders) ↔ Admissible s a := by
  have hsame : u.engine.orders = s.engine.orders →
      Within u.engine.orders ∧ Later s.engine.orders u.engine.orders := by
    intro horders
    rw [horders]
    exact ⟨h, Later.refl _⟩
  cases step_effect hstep with
  | order req now gaps engine before frame read =>
    rw [engine]
    exact register_iff h req
  | send r taken engine sent read => exact iff_of_true (hsame (by rw [engine])) trivial
  | recv chunk engine before after read => exact iff_of_true (hsame (by rw [engine])) trivial
  | leaveLoop now noFrame engine before after read =>
    refine iff_of_true (hsame (by rw [engine])) ?_
    intro ex hex
    rw [reportIn, noFrame] at hex
    cases hex
  | skip now data rest split invalid engine before after read =>
    refine iff_of_true (hsame (by rw [engine])) ?_
    intro ex hex
    rw [reportIn, split] at hex
    dsimp only at hex
    rw [invalid] at hex
    cases hex
  | report now data rest ex split valid engine before after read =>
    have hreport : reportIn s now = some ex := by
      rw [reportIn, split]
      exact valid
    rw [engine, report_iff h, Admissible, hreport]
    simp only [Option.mem_def, Option.some.injEq, forall_eq']
  | popExec engine sent read => exact iff_of_true (hsame (by rw [engine])) trivial

/-! ## Whole runs -/

theorem within_empty (data : Fin (2 ^ kRingDepthLog) → ExecUpdate) :
    Within (start data).engine.orders := by
  intro id st hst
  cases hst

/-- From a state within the law, admissible steps stay within it. -/
theorem run_keeps {s u : State} {actions : List Action} {trace : List Event}
    (h : machine.Run s actions u trace) (hwithin : Within s.engine.orders)
    (hmeet : machine.StepsMeet Admissible s actions) :
    Within u.engine.orders ∧ Later s.engine.orders u.engine.orders := by
  refine h.invariant_of_steps (I := fun t _ => Within t.engine.orders ∧
    Later s.engine.orders t.engine.orders) ⟨hwithin, Later.refl _⟩ ?_ hmeet
  intro t trace a v seen hI hcond hstep
  obtain ⟨hnow, hlater⟩ := hI
  obtain ⟨hnext, hstepLater⟩ := (step_iff hnow hstep).mpr hcond
  exact ⟨hnext, hlater.trans hstepLater⟩

/-- The law holds along a part of a run if it does along the whole. -/
theorem LifeCycle.of_append {s : State} {actions more : List Action}
    (h : LifeCycle s (actions ++ more)) : LifeCycle s actions := by
  intro first middle last hsplit
  refine h first middle (last ++ more) ?_
  rw [hsplit, List.append_assoc, List.append_assoc]

/-- The orders of a run keep to their life cycle exactly when every order registered
and every report parsed is admissible. -/
theorem life_cycle_iff (data : Fin (2 ^ kRingDepthLog) → ExecUpdate) (actions : List Action)
    (s : State) (trace : List Event) (h : machine.Run (start data) actions s trace) :
    LifeCycle (start data) actions ↔ machine.StepsMeet Admissible (start data) actions := by
  constructor
  · refine h.induction (P := fun actions _ _ => LifeCycle (start data) actions →
      machine.StepsMeet Admissible (start data) actions) ?_ ?_
    · exact fun _ => trivial
    · intro actions t trace a u seen hrun ih hstep hlaw
      have hmeet := ih hlaw.of_append
      have hwithin := (run_keeps hrun (within_empty data) hmeet).1
      have hlast := hlaw actions [a] [] rfl t trace hrun u seen (Machine.Run.single hstep)
      exact (Machine.stepsMeet_snoc_iff hrun).mpr ⟨hmeet, (step_iff hwithin hstep).mp hlast⟩
  · intro hmeet first middle last hsplit t before hfirst u during hmiddle
    rw [hsplit, Machine.stepsMeet_append_iff hfirst, Machine.stepsMeet_append_iff hmiddle] at hmeet
    obtain ⟨hbefore, hduring, -⟩ := hmeet
    exact run_keeps hmiddle (run_keeps hfirst (within_empty data) hbefore).1 hduring

/-! ## One order and its reports -/

/-- The frame of a report for the first order. -/
def report (kind : ExecType) (qty : Int64) : Bytes :=
  packWithLength
    (WireExecReport.toBytes { clOrdId := 1, execType := kind.toByte, fillQty := qty })

def sellTwo : OrderRequest := { side := .sell, px := 1001, qty := 2 }

/-- An order over two, its acknowledgement, a partial fill and the fill of the rest. -/
def filledInTwo : List Action :=
  [.order sellTwo 0 (0, 0), .send (.accepted 60),
    .recv (report .ack 0 ++ report .partialFill 1 ++ report .fill 1), .parse 0, .parse 0, .parse 0,
    .parse 0]

theorem filledInTwo_enabled :
    (machine.exec (start fun _ => {}) filledInTwo).isSome = true := by decide +kernel

/-- The entry after the fill, after one more acknowledgement and after one more fill. -/
theorem runs_after_fill : ∃ s before, machine.Run (start fun _ => {}) filledInTwo s before ∧
    s.engine.orders.lookup 1 = some (orderState sellTwo .fill 2) ∧
    (∃ u during, machine.Run s [.recv (report .ack 0), .parse 0] u during ∧
      u.engine.orders.lookup 1 = some (orderState sellTwo .ack 2)) ∧
    ∃ u during, machine.Run s [.recv (report .fill 1), .parse 0] u during ∧
      u.engine.orders.lookup 1 = some (orderState sellTwo .fill 3) := by
  refine ⟨_, _, Machine.run_of_isSome _ _ filledInTwo_enabled, by decide +kernel, ?_, ?_⟩
  · exact ⟨_, _, Machine.run_of_isSome _ _ (by decide +kernel), by decide +kernel⟩
  · exact ⟨_, _, Machine.run_of_isSome _ _ (by decide +kernel), by decide +kernel⟩

/-- The acknowledgement once more after the fill reopens the order; the fill once
more takes it beyond its quantity. -/
theorem late_and_repeated_reports_break_life_cycle :
    ¬ LifeCycle (start fun _ => {}) (filledInTwo ++ [.recv (report .ack 0), .parse 0]) ∧
      ¬ LifeCycle (start fun _ => {}) (filledInTwo ++ [.recv (report .fill 1), .parse 0]) := by
  obtain ⟨s, before, hbefore, hfilled, ⟨u, during, hack, hreopened⟩, v, during', hfill, hover⟩ :=
    runs_after_fill
  refine ⟨?_, ?_⟩
  · intro hlaw
    obtain ⟨-, hlater⟩ := hlaw filledInTwo _ [] (List.append_nil _).symm s before hbefore u during
      hack
    obtain ⟨st', hst', hadvances⟩ := hlater 1 _ hfilled
    rw [hreopened] at hst'
    cases hst'
    cases (hadvances.frozen rfl).1
  · intro hlaw
    obtain ⟨hwithin, -⟩ := hlaw filledInTwo _ [] (List.append_nil _).symm s before hbefore v during'
      hfill
    obtain ⟨-, hqty⟩ := hwithin 1 _ hover
    exact absurd hqty (by decide)

/-- The fill once more without a quantity changes nothing. -/
theorem life_cycle_iff_filled_in_two :
    ∃ s trace, machine.Run (start fun _ => {})
        (filledInTwo ++ [.recv (report .fill 0), .parse 0, .parse 0]) s trace ∧
      LifeCycle (start fun _ => {})
        (filledInTwo ++ [.recv (report .fill 0), .parse 0, .parse 0]) := by
  have hrun := Machine.run_of_isSome (m := machine) (start fun _ => {})
    (filledInTwo ++ [.recv (report .fill 0), .parse 0, .parse 0]) (by decide +kernel)
  exact ⟨_, _, hrun, (life_cycle_iff _ _ _ _ hrun).mpr (by decide +kernel)⟩

end CppCodes.Guarantees.OrderLifeCycle
