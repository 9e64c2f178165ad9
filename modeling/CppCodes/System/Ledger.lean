import CppCodes.Source.HftTest.OmsEngine

/-!
# The order ledger

What the map `orders_` should say, in terms of the orders sent so far and of how
far each has got: `filled` orders, at most one `acked` order, and `rest`, the
orders without any report yet, all in the order in which they were sent. The
three changes are a new order, an acknowledgement of the first of `rest`, and a
fill of the acknowledged one.
-/

set_option autoImplicit false

namespace CppCodes.System

open CppCodes.Source.HftTest

/-- A request with the message made of it. -/
abbrev Order := OrderRequest × WireNewOrder

namespace Order

def id (o : Order) : UInt64 := o.2.clOrdId

/-- The message carries what was requested. -/
structure Carries (o : Order) : Prop where
  magic : o.2.hdr.magic = kProtocolMagic
  msgType : o.2.hdr.msgType = kMsgNewOrder
  mdEventId : o.2.mdEventId = o.1.mdEventId
  px : o.2.px = o.1.px
  qty : o.2.qty = o.1.qty

theorem carries_newOrder (engine : OmsEngine) (req : OrderRequest) (now : Int64)
    (gaps : UInt32 × UInt32) : Carries (req, engine.newOrder req now gaps) :=
  ⟨rfl, rfl, rfl, rfl, rfl⟩

end Order

/-- What a report says, without its timestamps. -/
structure Answer where
  clOrdId : UInt64
  mdEventId : UInt64
  execType : ExecType
  fillPx : Int64
  fillQty : Int64
  deriving DecidableEq

namespace Answer

def ofReport (rep : WireExecReport) : Answer :=
  ⟨rep.clOrdId, rep.mdEventId, .ofByte rep.execType, rep.fillPx, rep.fillQty⟩

def ofUpdate (ex : ExecUpdate) : Answer :=
  ⟨ex.clOrdId, ex.mdEventId, ex.execType, ex.fillPx, ex.fillQty⟩

/-- The two answers an order should get. -/
def ack (w : WireNewOrder) : Answer := ⟨w.clOrdId, w.mdEventId, .ack, 0, 0⟩
def fill (w : WireNewOrder) : Answer := ⟨w.clOrdId, w.mdEventId, .fill, w.px, w.qty⟩

theorem ack_ne_fill (w w' : WireNewOrder) : ack w ≠ fill w' := by
  intro h
  have hType := congrArg Answer.execType h
  cases hType

end Answer

def answers (o : Order) : List Answer := [.ack o.2, .fill o.2]

/-- The answers still missing. -/
def missing (acked : Option Order) (rest : List Order) : List Answer :=
  acked.toList.map (fun o => .fill o.2) ++ rest.flatMap answers

/-- The ids handed out for `n` orders. -/
def issued (n : Nat) : List UInt64 := (List.range n).map fun i => UInt64.ofNat (i + 1)

theorem ofNat_succ_inj {i j : Nat} (hi : i + 1 < 2 ^ 64) (hj : j + 1 < 2 ^ 64)
    (h : UInt64.ofNat (i + 1) = UInt64.ofNat (j + 1)) : i = j := by
  have hNat := congrArg UInt64.toNat h
  rw [UInt64.toNat_ofNat', UInt64.toNat_ofNat', Nat.mod_eq_of_lt hi, Nat.mod_eq_of_lt hj] at hNat
  omega

theorem issued_succ (n : Nat) : issued (n + 1) = issued n ++ [UInt64.ofNat (n + 1)] := by
  simp [issued, List.range_succ]

theorem issued_nodup {n : Nat} (h : n < 2 ^ 64) : (issued n).Nodup := by
  refine List.Nodup.map_on ?_ List.nodup_range
  intro i hi j hj he
  rw [List.mem_range] at hi hj
  exact ofNat_succ_inj (by omega) (by omega) he

theorem next_not_issued {n : Nat} (h : n + 1 < 2 ^ 64) : UInt64.ofNat (n + 1) ∉ issued n := by
  intro hmem
  obtain ⟨i, hi, he⟩ := List.mem_map.mp hmem
  rw [List.mem_range] at hi
  have heq := ofNat_succ_inj (by omega) h he
  omega

/-- The orders sent carry what was requested and took the ids from the counter. -/
structure Issued (engine : OmsEngine) (sent : List Order) : Prop where
  ids : sent.map Order.id = issued sent.length
  next : engine.nextClordid = UInt64.ofNat (sent.length + 1)
  carried : ∀ o ∈ sent, o.Carries

namespace Issued

variable {engine engine' : OmsEngine} {sent : List Order}

theorem start (outbound : SPSCRing ExecUpdate kRingDepthLog) :
    Issued { outbound := outbound } [] := ⟨rfl, rfl, by simp⟩

theorem congr (h : Issued engine sent) (next : engine'.nextClordid = engine.nextClordid) :
    Issued engine' sent := ⟨h.ids, next.trans h.next, h.carried⟩

theorem nodup (h : Issued engine sent) (fits : sent.length < 2 ^ 64) :
    (sent.map Order.id).Nodup := by
  rw [h.ids]
  exact issued_nodup fits

/-- The id of the next order is a new one. -/
theorem fresh (h : Issued engine sent) (fits : sent.length + 1 < 2 ^ 64) :
    ∀ o ∈ sent, o.id ≠ engine.nextClordid := by
  intro o ho he
  have hmem : o.id ∈ issued sent.length := by
    rw [← h.ids]
    exact List.mem_map_of_mem ho
  rw [he, h.next] at hmem
  exact next_not_issued fits hmem

theorem register (h : Issued engine sent) (req : OrderRequest) (now : Int64)
    (gaps : UInt32 × UInt32) :
    Issued (engine.registerOrder req) (sent ++ [(req, engine.newOrder req now gaps)]) := by
  have hlen : (sent ++ [(req, engine.newOrder req now gaps)]).length = sent.length + 1 :=
    List.length_append
  have hid : Order.id (req, engine.newOrder req now gaps) = engine.nextClordid := rfl
  refine ⟨?_, ?_, ?_⟩
  · rw [hlen, List.map_append, h.ids, issued_succ, List.map_singleton, hid, h.next]
  · rw [hlen]
    show engine.nextClordid + 1 = _
    rw [h.next]
    exact (UInt64.ofNat_add _ 1).symm
  · intro o ho
    rcases List.mem_append.mp ho with hold | hnew
    · exact h.carried o hold
    · rw [List.mem_singleton.mp hnew]
      exact Order.carries_newOrder engine req now gaps

end Issued

/-- What `orders_` holds for the orders and their progress. -/
structure Ledger (engine : OmsEngine) (filled : List Order) (acked : Option Order)
    (rest : List Order) : Prop where
  closed : ∀ o ∈ filled,
    engine.orders.lookup o.id = some (OmsEngine.orderState o.1 .fill o.1.qty)
  opened : ∀ o ∈ acked.toList ++ rest,
    engine.orders.lookup o.id = some (OmsEngine.orderState o.1 .ack 0)
  known : ∀ id ∈ engine.orders, id ∈ (filled ++ (acked.toList ++ rest)).map Order.id

namespace Ledger

variable {engine engine' : OmsEngine} {filled rest : List Order} {acked : Option Order} {o : Order}

theorem start (outbound : SPSCRing ExecUpdate kRingDepthLog) :
    Ledger { outbound := outbound } [] none [] := by
  refine ⟨by simp, by simp, ?_⟩
  intro id hid
  exact absurd hid (Finmap.notMem_empty)

/-- Only the map matters. -/
theorem congr (h : Ledger engine filled acked rest) (orders : engine'.orders = engine.orders) :
    Ledger engine' filled acked rest := by
  obtain ⟨closed, opened, known⟩ := h
  rw [← orders] at closed opened known
  exact ⟨closed, opened, known⟩

theorem lookup_isSome (h : Ledger engine filled acked rest)
    (ho : o ∈ filled ++ (acked.toList ++ rest)) : o.id ∈ engine.orders := by
  rw [← Finmap.lookup_isSome]
  rcases List.mem_append.mp ho with hf | hr
  · rw [h.closed o hf]
    rfl
  · rw [h.opened o hr]
    rfl

/-- Every entry is acknowledged and untouched, or filled to the last share. -/
theorem entry_cases (h : Ledger engine filled acked rest) {id : UInt64} {st : OrderState}
    (hst : engine.orders.lookup id = some st) :
    (st.state = .ack ∧ st.filled = 0) ∨ (st.state = .fill ∧ st.filled = st.qty) := by
  have hmem : id ∈ engine.orders := by
    rw [← Finmap.lookup_isSome, hst]
    rfl
  obtain ⟨o, ho, rfl⟩ := List.mem_map.mp (h.known id hmem)
  rcases List.mem_append.mp ho with hf | hr
  · have hentry := h.closed o hf
    rw [hst, Option.some.injEq] at hentry
    subst hentry
    exact Or.inr ⟨rfl, rfl⟩
  · have hentry := h.opened o hr
    rw [hst, Option.some.injEq] at hentry
    subst hentry
    exact Or.inl ⟨rfl, rfl⟩

/-- A new order takes an id that no entry has. -/
theorem register (h : Ledger engine filled acked rest) (req : OrderRequest) (now : Int64)
    (gaps : UInt32 × UInt32)
    (fresh : ∀ o ∈ filled ++ (acked.toList ++ rest), o.id ≠ engine.nextClordid) :
    Ledger (engine.registerOrder req) filled acked (rest ++ [(req, engine.newOrder req now gaps)]) := by
  have hassoc : filled ++ (acked.toList ++ (rest ++ [(req, engine.newOrder req now gaps)])) =
      filled ++ (acked.toList ++ rest) ++ [(req, engine.newOrder req now gaps)] := by
    simp only [List.append_assoc]
  have hid : Order.id (req, engine.newOrder req now gaps) = engine.nextClordid := rfl
  refine ⟨?_, ?_, ?_⟩
  · intro o ho
    rw [OmsEngine.registerOrder, Finmap.lookup_insert_of_ne _ (fresh o (by simp [ho]))]
    exact h.closed o ho
  · intro o ho
    rw [← List.append_assoc] at ho
    rcases List.mem_append.mp ho with hold | hnew
    · rw [OmsEngine.registerOrder,
        Finmap.lookup_insert_of_ne _ (fresh o (List.mem_append_right _ hold))]
      exact h.opened o hold
    · rw [List.mem_singleton.mp hnew, hid]
      exact Finmap.lookup_insert _
  · intro id hmem
    rw [hassoc, List.map_append, List.map_singleton, hid]
    rcases Finmap.mem_insert.mp hmem with rfl | hold
    · simp
    · exact List.mem_append_left _ (h.known id hold)

theorem lookup_applyReport (ex : ExecUpdate) {st : OrderState} {id : UInt64}
    (hst : engine.orders.lookup ex.clOrdId = some st) :
    (engine.applyReport ex).orders.lookup id =
      if id = ex.clOrdId then some (OmsEngine.updateEntry st ex) else engine.orders.lookup id := by
  unfold OmsEngine.applyReport
  rw [hst]
  by_cases he : id = ex.clOrdId
  · rw [if_pos he, he]
    exact Finmap.lookup_insert _
  · rw [if_neg he]
    exact Finmap.lookup_insert_of_ne _ he

theorem mem_applyReport (ex : ExecUpdate) {st : OrderState} {id : UInt64}
    (hst : engine.orders.lookup ex.clOrdId = some st) (h : id ∈ (engine.applyReport ex).orders) :
    id ∈ engine.orders := by
  rw [← Finmap.lookup_isSome, lookup_applyReport ex hst] at h
  by_cases he : id = ex.clOrdId
  · rw [← Finmap.lookup_isSome, he, hst]
    rfl
  · rw [if_neg he] at h
    exact Finmap.lookup_isSome.mp h

/-- An acknowledgement leaves the entry of its order as it was. -/
theorem acknowledge (h : Ledger engine filled none (o :: rest)) {ex : ExecUpdate}
    (hex : Answer.ofUpdate ex = .ack o.2) : Ledger (engine.applyReport ex) filled (some o) rest := by
  have hid : ex.clOrdId = o.id := congrArg Answer.clOrdId hex
  have hentry := h.opened o (by simp)
  have hsame : OmsEngine.updateEntry (OmsEngine.orderState o.1 .ack 0) ex =
      OmsEngine.orderState o.1 .ack 0 := by
    have hType : ex.execType = .ack := congrArg Answer.execType hex
    have hQty : ex.fillQty = 0 := congrArg Answer.fillQty hex
    rw [OmsEngine.updateEntry, hType, hQty]
    rfl
  have hlookup : ∀ id, (engine.applyReport ex).orders.lookup id = engine.orders.lookup id := by
    intro id
    rw [lookup_applyReport ex (hid ▸ hentry), hsame]
    split
    · next he => rw [he, hid, hentry]
    · rfl
  obtain ⟨closed, opened, known⟩ := h.congr (Finmap.ext_lookup hlookup)
  exact ⟨closed, opened, known⟩

/-- A fill closes the entry of the acknowledged order and no other. -/
theorem close (h : Ledger engine filled (some o) rest)
    (nodup : ((filled ++ ([o] ++ rest)).map Order.id).Nodup) (carried : o.Carries)
    {ex : ExecUpdate} (hex : Answer.ofUpdate ex = .fill o.2) :
    Ledger (engine.applyReport ex) (filled ++ [o]) none rest := by
  have hid : ex.clOrdId = o.id := congrArg Answer.clOrdId hex
  have hentry : engine.orders.lookup ex.clOrdId = some (OmsEngine.orderState o.1 .ack 0) := by
    rw [hid]
    exact h.opened o (by simp)
  have hassoc : filled ++ [o] ++ rest = filled ++ ([o] ++ rest) := List.append_assoc _ _ _
  have hdone : OmsEngine.updateEntry (OmsEngine.orderState o.1 .ack 0) ex =
      OmsEngine.orderState o.1 .fill o.1.qty := by
    have hType : ex.execType = .fill := congrArg Answer.execType hex
    have hQty : ex.fillQty = o.2.qty := congrArg Answer.fillQty hex
    rw [OmsEngine.updateEntry, hType, hQty, carried.qty]
    simp [OmsEngine.orderState]
  have hother : ∀ o' ∈ filled ++ rest, o'.id ≠ ex.clOrdId := by
    have hperm : (filled ++ ([o] ++ rest)).Perm (o :: (filled ++ rest)) := List.perm_middle
    have hnodup := (hperm.map Order.id).nodup_iff.mp nodup
    rw [List.map_cons, List.nodup_cons] at hnodup
    intro o' ho' he
    rw [hid] at he
    exact hnodup.1 (he ▸ List.mem_map_of_mem ho')
  refine ⟨?_, ?_, ?_⟩
  · intro o' ho'
    rw [lookup_applyReport ex hentry, hdone]
    rcases List.mem_append.mp ho' with hold | hnew
    · rw [if_neg (hother o' (List.mem_append_left _ hold))]
      exact h.closed o' hold
    · rw [List.mem_singleton.mp hnew, if_pos hid.symm]
  · intro o' ho'
    have hrest : o' ∈ rest := by simpa using ho'
    rw [lookup_applyReport ex hentry, if_neg (hother o' (List.mem_append_right _ hrest))]
    exact h.opened o' (by simp [hrest])
  · intro id hmem
    rw [Option.toList_none, List.nil_append, hassoc]
    exact h.known id (mem_applyReport ex hentry hmem)

end Ledger

end CppCodes.System
