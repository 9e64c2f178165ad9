import CppCodes.Source.RustCpp.Sampling
import Mathlib.Algebra.Order.Ring.Int
import Mathlib.Data.List.Basic

/-!
# Which messages the Rust and the C++ feed sample

md.cpp stays in its bridge phase until an update advances the last id; `run_once` leaves
it with the first update there is, although its comment says "stop once we accept the
first advancing update". The two sample the same messages exactly if that first update
is an advancing one.
-/

set_option autoImplicit false

namespace CppCodes.Guarantees.SampleAgreement

open Source.RustCpp

variable {F : Type} [LinearOrder F]

/-- Behind the id `last`, every update that is not stale can be applied. -/
def Gapless : Int64 → List DepthUpdate → Prop
  | _, [] => True
  | last, upd :: rest =>
      if upd.u ≤ last then Gapless last rest
      else (upd.U.toInt ≤ last.toInt + 1 ∨ Linked last upd) ∧ Gapless upd.u rest

instance Gapless.decidable : ∀ last upds, Decidable (Gapless last upds)
  | _, [] => isTrue trivial
  | last, upd :: rest =>
      have : Decidable (Gapless last rest) := Gapless.decidable last rest
      have : Decidable (Gapless upd.u rest) := Gapless.decidable upd.u rest
      inferInstanceAs (Decidable (if upd.u ≤ last then Gapless last rest
        else (upd.U.toInt ≤ last.toInt + 1 ∨ Linked last upd) ∧ Gapless upd.u rest))

def updates (msgs : List Message) : List DepthUpdate := msgs.filterMap Message.update?

/-- The message has an update that advances the id `last`. -/
def advances (last : Int64) (msg : Message) : Bool :=
  match msg.update? with
  | none => false
  | some upd => decide (last < upd.u)

/-- If the bridge phase came to its end, it did with the first update that advances the
snapshot's id. -/
def BridgesAtFirst (last : Int64) (msgs : List Message) (s : Session F) : Prop :=
  ∀ i, s.bridged = some i → msgs.findIdx? (advances last) = some i

variable [Zero F]

/-- No text of a level is one that `std::stod` refuses. -/
def WellFormed (n : Numbers F) (upd : DepthUpdate) : Prop :=
  (∃ bidD, Md.readSide n upd.b = .ok bidD) ∧ ∃ askD, Md.readSide n upd.a = .ok askD

/-- The update path never fails on such a stream, and says with the id whether the update
was stale. -/
theorem applyUpdate_gapless (readSide : List RawLevel → Except Failure (List (F × F)))
    {s : Feed F} {upd : DepthUpdate} {rest : List DepthUpdate}
    (gapless : Gapless s.lastUpdateId (upd :: rest))
    (bids : ∃ bidD, readSide upd.b = .ok bidD) (asks : ∃ askD, readSide upd.a = .ok askD) :
    ∃ t, applyUpdate readSide s upd = (t, .ok ()) ∧ Gapless t.lastUpdateId rest ∧
      t.lastUpdateId = if upd.u ≤ s.lastUpdateId then s.lastUpdateId else upd.u := by
  have heffect := applyUpdate_effect readSide s upd
  obtain ⟨bidD, hbids⟩ := bids
  obtain ⟨askD, hasks⟩ := asks
  rw [Gapless] at gapless
  generalize applyUpdate readSide s upd = result at heffect
  cases heffect with
  | stale old =>
    have hold := Int64.le_iff_toInt_le.mpr old
    rw [if_pos hold] at gapless ⊢
    exact ⟨s, rfl, gapless, rfl⟩
  | gap fresh beyond unlinked =>
    have hnew : ¬ upd.u ≤ s.lastUpdateId := by
      rw [Int64.le_iff_toInt_le]
      omega
    rw [if_neg hnew] at gapless
    rcases gapless.1 with hwindow | hlinked
    · omega
    · exact absurd hlinked unlinked
  | unreadable e fresh bad =>
    rcases bad with hbad | hbad
    · rw [hbids] at hbad
      cases hbad
    · rw [hasks] at hbad
      cases hbad
  | applied bidD askD fresh bridged bids asks =>
    have hnew : ¬ upd.u ≤ s.lastUpdateId := by
      rw [Int64.le_iff_toInt_le]
      omega
    rw [if_neg hnew] at gapless ⊢
    exact ⟨_, rfl, gapless.2, rfl⟩

variable {n : Numbers F} {taken : Nat} {s t : Session F} {msg : Message} {msgs : List Message}

/-! ## Behind the bridge phase -/

theorem rust_left (n : Numbers F) (msgs : List Message) (h : s.phase = .left) :
    msgs.foldl (MainRs.receive n) s = s := by
  apply List.foldl_fixed'
  intro msg
  unfold MainRs.receive
  rw [h]

theorem cpp_left (n : Numbers F) (taken : Nat) (msgs : List Message) (h : s.phase = .left) :
    msgs.foldl (Md.receive n taken) s = s := by
  apply List.foldl_fixed'
  intro msg
  unfold Md.receive
  rw [h]

/-- The bridge phase is over, with the message it was over before. -/
def Bridged (i : Option Nat) (s : Session F) : Prop := s.phase ≠ .bridge ∧ s.bridged = i

theorem rust_bridged_step {i : Option Nat} (h : Bridged i s) : Bridged i (MainRs.receive n s msg) := by
  obtain ⟨hphase, rfl⟩ := h
  unfold MainRs.receive
  cases hs : s.phase with
  | bridge => exact absurd hs hphase
  | left => exact ⟨hphase, rfl⟩
  | steady =>
    dsimp only
    cases msg.update? with
    | none =>
      dsimp only
      split
      · exact ⟨by simp, rfl⟩
      · exact ⟨by simp, rfl⟩
    | some upd =>
      dsimp only
      rcases MainRs.applyUpdate n s.feed upd with ⟨feed, e | _⟩
      · exact ⟨by simp, rfl⟩
      · dsimp only
        split
        · exact ⟨by simp, rfl⟩
        · exact ⟨by simp, rfl⟩

theorem rust_bridged {i : Option Nat} (h : Bridged i s) :
    Bridged i (msgs.foldl (MainRs.receive n) s) :=
  List.foldlRecOn msgs _ h fun _ hs _ _ => rust_bridged_step hs

theorem cpp_bridged_step {i : Option Nat} (h : Bridged i s) :
    Bridged i (Md.receive n taken s msg) := by
  obtain ⟨hphase, rfl⟩ := h
  unfold Md.receive
  cases hs : s.phase with
  | bridge => exact absurd hs hphase
  | left => exact ⟨hphase, rfl⟩
  | steady =>
    dsimp only
    cases msg.update? with
    | none => exact ⟨by simp, rfl⟩
    | some upd =>
      dsimp only
      rcases Md.applyUpdateJson n s.feed upd with ⟨feed, e | _⟩
      · exact ⟨by simp, rfl⟩
      · dsimp only
        split
        · exact ⟨by simp, rfl⟩
        · exact ⟨by simp, rfl⟩

theorem cpp_bridged {i : Option Nat} (h : Bridged i s) :
    Bridged i (msgs.foldl (Md.receive n taken) s) :=
  List.foldlRecOn msgs _ h fun _ hs _ _ => cpp_bridged_step hs

/-- Below the limit, an update that can be applied is sampled. -/
theorem rust_samples {upd : DepthUpdate} {feed : Feed F} (hphase : s.phase ≠ .left)
    (hmsg : msg.update? = some upd) (happly : MainRs.applyUpdate n s.feed upd = (feed, .ok ()))
    (fewer : ((msg :: msgs).foldl (MainRs.receive n) s).samples.length < updateLimit) :
    MainRs.receive n s msg =
      { feed, phase := .steady, received := s.received + 1, samples := s.samples ++ [s.received]
        bridged := if s.phase = .bridge then some s.received else s.bridged } := by
  have hreceive : MainRs.receive n s msg =
      { feed, received := s.received + 1, samples := s.samples ++ [s.received]
        phase := if (s.samples ++ [s.received]).length ≥ updateLimit then .left else .steady
        bridged := if s.phase = .bridge then some s.received else s.bridged } := by
    unfold MainRs.receive
    cases hs : s.phase with
    | bridge => simp [hmsg, happly]
    | steady => simp [hmsg, happly]
    | left => exact absurd hs hphase
  rw [List.foldl_cons, hreceive] at fewer
  by_cases hlimit : (s.samples ++ [s.received]).length ≥ updateLimit
  · rw [if_pos hlimit, rust_left n msgs rfl] at fewer
    exact absurd fewer (Nat.not_lt.mpr hlimit)
  · rw [hreceive, if_neg hlimit]

theorem cpp_samples {upd : DepthUpdate} {feed : Feed F}
    (hphase : s.phase = .steady ∨ s.phase = .bridge ∧ feed.lastUpdateId ≠ s.feed.lastUpdateId)
    (hmsg : msg.update? = some upd) (happly : Md.applyUpdateJson n s.feed upd = (feed, .ok ()))
    (fewer : taken + ((msg :: msgs).foldl (Md.receive n taken) s).samples.length < updateLimit) :
    Md.receive n taken s msg =
      { feed, phase := .steady, received := s.received + 1, samples := s.samples ++ [s.received]
        bridged := if s.phase = .bridge then some s.received else s.bridged } := by
  have hreceive : Md.receive n taken s msg =
      { feed, received := s.received + 1, samples := s.samples ++ [s.received]
        phase := if taken + (s.samples ++ [s.received]).length ≥ updateLimit then .left else .steady
        bridged := if s.phase = .bridge then some s.received else s.bridged } := by
    unfold Md.receive
    rcases hphase with hs | ⟨hs, hid⟩
    · simp [hs, hmsg, happly]
    · simp [hs, hmsg, happly, hid]
  rw [List.foldl_cons, hreceive] at fewer
  by_cases hlimit : taken + (s.samples ++ [s.received]).length ≥ updateLimit
  · rw [if_pos hlimit, cpp_left n taken msgs rfl] at fewer
    exact absurd fewer (Nat.not_lt.mpr hlimit)
  · rw [hreceive, if_neg hlimit]

theorem rust_control (hphase : s.phase ≠ .left) (hmsg : msg.update? = none)
    (fewer : ((msg :: msgs).foldl (MainRs.receive n) s).samples.length < updateLimit) :
    MainRs.receive n s msg = { s with received := s.received + 1 } := by
  unfold MainRs.receive at fewer ⊢
  cases hs : s.phase with
  | bridge => simp [hmsg]
  | left => exact absurd hs hphase
  | steady =>
    by_cases hlimit : s.samples.length ≥ updateLimit
    · simp only [List.foldl_cons, hs, hmsg, if_pos hlimit] at fewer
      have hleft := rust_left n msgs (s := { s with received := s.received + 1, phase := .left }) rfl
      unfold MainRs.receive at hleft
      rw [hleft] at fewer
      exact absurd fewer (Nat.not_lt.mpr hlimit)
    · simp [hmsg, hlimit]

theorem cpp_control (n : Numbers F) (taken : Nat) (hphase : s.phase ≠ .left) (hmsg : msg.update? = none) :
    Md.receive n taken s msg = { s with received := s.received + 1 } := by
  unfold Md.receive
  cases hs : s.phase with
  | left => exact absurd hs hphase
  | bridge => simp [hmsg]
  | steady => simp [hmsg]

/-- Both are in the steady state and have come to the same. -/
structure Agree (s t : Session F) : Prop where
  steady : s.phase = .steady ∧ t.phase = .steady
  id : t.feed.lastUpdateId = s.feed.lastUpdateId
  received : t.received = s.received
  samples : t.samples = s.samples

theorem updates_cons_some {upd : DepthUpdate} (hmsg : msg.update? = some upd) :
    updates (msg :: msgs) = upd :: updates msgs := List.filterMap_cons_some hmsg

theorem updates_cons_none (hmsg : msg.update? = none) : updates (msg :: msgs) = updates msgs :=
  List.filterMap_cons_none hmsg

/-- From there on every update is sampled by both. -/
theorem agree_samples (agree : Agree s t) (gapless : Gapless s.feed.lastUpdateId (updates msgs))
    (wellFormed : ∀ upd ∈ updates msgs, WellFormed n upd)
    (rustFewer : (msgs.foldl (MainRs.receive n) s).samples.length < updateLimit)
    (cppFewer : taken + (msgs.foldl (Md.receive n taken) t).samples.length < updateLimit) :
    (msgs.foldl (MainRs.receive n) s).samples = (msgs.foldl (Md.receive n taken) t).samples := by
  induction msgs generalizing s t with
  | nil => exact agree.samples.symm
  | cons msg rest ih =>
    obtain ⟨hs, ht⟩ := agree.steady
    cases hmsg : msg.update? with
    | none =>
      rw [updates_cons_none hmsg] at gapless wellFormed
      have hs' := rust_control (by simp [hs]) hmsg rustFewer
      have ht' := cpp_control n taken (s := t) (by simp [ht]) hmsg
      rw [List.foldl_cons, hs'] at rustFewer ⊢
      rw [List.foldl_cons, ht'] at cppFewer ⊢
      have hnext : Agree { s with received := s.received + 1 } { t with received := t.received + 1 } :=
        ⟨agree.steady, agree.id, congrArg (· + 1) agree.received, agree.samples⟩
      exact ih hnext gapless wellFormed rustFewer cppFewer
    | some upd =>
      rw [updates_cons_some hmsg] at gapless wellFormed
      have hwell := wellFormed upd List.mem_cons_self
      obtain ⟨feed, hrust, hgapless, hid⟩ :=
        applyUpdate_gapless (MainRs.readSide n) gapless ⟨_, rfl⟩ ⟨_, rfl⟩
      rw [← agree.id] at gapless
      obtain ⟨feed', hcpp, -, hid'⟩ := applyUpdate_gapless (Md.readSide n) gapless hwell.1 hwell.2
      have hs' := rust_samples (by simp [hs]) hmsg hrust rustFewer
      have ht' := cpp_samples (Or.inl ht) hmsg hcpp cppFewer
      rw [List.foldl_cons, hs'] at rustFewer ⊢
      rw [List.foldl_cons, ht'] at cppFewer ⊢
      refine ih ⟨⟨rfl, rfl⟩, ?_, ?_, ?_⟩ hgapless (fun u hu => wellFormed u (by simp [hu]))
        rustFewer cppFewer
      · show feed'.lastUpdateId = feed.lastUpdateId
        rw [hid, hid', agree.id]
      · show t.received + 1 = s.received + 1
        rw [agree.received]
      · show t.samples ++ [t.received] = s.samples ++ [s.received]
        rw [agree.samples, agree.received]

/-! ## The first update -/

/-- Nothing but control messages, or those and then an update. -/
theorem first_update (msgs : List Message) :
    ∃ controls, (∀ c ∈ controls, Message.update? c = none) ∧
      (msgs = controls ∨
        ∃ msg upd rest, msgs = controls ++ msg :: rest ∧ msg.update? = some upd) := by
  induction msgs with
  | nil => exact ⟨[], by simp, Or.inl rfl⟩
  | cons msg rest ih =>
    cases hmsg : msg.update? with
    | some upd => exact ⟨[], by simp, Or.inr ⟨msg, upd, rest, rfl, hmsg⟩⟩
    | none =>
      obtain ⟨controls, hcontrols, hrest⟩ := ih
      refine ⟨msg :: controls, by simpa [hmsg] using hcontrols, ?_⟩
      rcases hrest with rfl | ⟨first, upd, later, rfl, hfirst⟩
      · exact Or.inl rfl
      · exact Or.inr ⟨first, upd, later, rfl, hfirst⟩

theorem updates_controls {controls : List Message}
    (h : ∀ c ∈ controls, Message.update? c = none) : updates controls = [] :=
  List.filterMap_eq_nil_iff.mpr h

omit [Zero F] in
/-- In the bridge phase messages without an update are counted, and nothing else. -/
theorem controls_counted {receive : Session F → Message → Session F}
    (counts : ∀ s c, s.phase = .bridge → Message.update? c = none →
      receive s c = { s with received := s.received + 1 })
    {controls : List Message} (h : ∀ c ∈ controls, Message.update? c = none)
    (hs : s.phase = .bridge) :
    controls.foldl receive s = { s with received := s.received + controls.length } := by
  induction controls generalizing s with
  | nil => rfl
  | cons c controls ih =>
    have hstep := counts s c hs (h c List.mem_cons_self)
    have hrest := ih (s := { s with received := s.received + 1 })
      (fun d hd => h d (List.mem_cons_of_mem c hd)) hs
    rw [List.foldl_cons, hstep, hrest, List.length_cons, Nat.add_assoc, Nat.add_comm 1]

theorem rust_controls (n : Numbers F) {controls : List Message}
    (h : ∀ c ∈ controls, Message.update? c = none) (hs : s.phase = .bridge) :
    controls.foldl (MainRs.receive n) s = { s with received := s.received + controls.length } := by
  apply controls_counted _ h hs
  intro s c hphase hnone
  unfold MainRs.receive
  simp [hphase, hnone]

theorem cpp_controls (n : Numbers F) (taken : Nat) {controls : List Message}
    (h : ∀ c ∈ controls, Message.update? c = none) (hs : s.phase = .bridge) :
    controls.foldl (Md.receive n taken) s =
      { s with received := s.received + controls.length } := by
  apply controls_counted _ h hs
  intro s c hphase hnone
  exact cpp_control n taken (by simp [hphase]) hnone

/-- The place of the first update, if it is the one that advances the id. -/
theorem findIdx_first (last : Int64) (msgs : List Message) {controls : List Message}
    {upd : DepthUpdate} (h : ∀ c ∈ controls, Message.update? c = none) (hmsg : msg.update? = some upd) :
    (controls ++ msg :: msgs).findIdx? (advances last) = some controls.length ↔ last < upd.u := by
  have hcontrols : controls.findIdx? (advances last) = none := by
    rw [List.findIdx?_eq_none_iff]
    intro c hc
    simp [advances, h c hc]
  rw [List.findIdx?_append, hcontrols, List.findIdx?_cons]
  by_cases hfirst : last < upd.u
  · simp [advances, hmsg, hfirst]
  · have hnot : advances last msg = false := by simp [advances, hmsg, hfirst]
    cases hrest : msgs.findIdx? (advances last) with
    | none => simp [hnot, hfirst]
    | some x => simp [hnot, hfirst]

section First

variable {controls : List Message} {upd : DepthUpdate}

/-- `run_once` bridges with the first update, whatever it is. -/
theorem rust_first (snapshot : Feed F) (hcontrols : ∀ c ∈ controls, Message.update? c = none)
    (hmsg : msg.update? = some upd)
    (gapless : Gapless snapshot.lastUpdateId (updates (controls ++ msg :: msgs)))
    (fewer : (MainRs.session n snapshot (controls ++ msg :: msgs)).samples.length < updateLimit) :
    ∃ feed, Gapless feed.lastUpdateId (updates msgs) ∧
      feed.lastUpdateId =
        (if upd.u ≤ snapshot.lastUpdateId then snapshot.lastUpdateId else upd.u) ∧
      MainRs.session n snapshot (controls ++ msg :: msgs) = msgs.foldl (MainRs.receive n)
        { feed, phase := .steady, received := controls.length + 1, samples := [controls.length]
          bridged := some controls.length } := by
  rw [updates, List.filterMap_append, ← updates, ← updates, updates_controls hcontrols,
    List.nil_append, updates_cons_some hmsg] at gapless
  obtain ⟨feed, happly, hgapless, hid⟩ :=
    applyUpdate_gapless (MainRs.readSide n) gapless ⟨_, rfl⟩ ⟨_, rfl⟩
  refine ⟨feed, hgapless, hid, ?_⟩
  have hbefore := rust_controls n (s := { feed := snapshot }) hcontrols rfl
  rw [Nat.zero_add] at hbefore
  rw [MainRs.session, List.foldl_append, hbefore] at fewer ⊢
  have hsampled := rust_samples (s := { feed := snapshot, received := controls.length }) (by simp)
    hmsg happly fewer
  rw [List.foldl_cons, hsampled]
  rfl

/-- `main` does if it advances the id. -/
theorem cpp_first (snapshot : Feed F) (hcontrols : ∀ c ∈ controls, Message.update? c = none)
    (hmsg : msg.update? = some upd)
    (gapless : Gapless snapshot.lastUpdateId (updates (controls ++ msg :: msgs)))
    (wellFormed : WellFormed n upd) (first : snapshot.lastUpdateId < upd.u)
    (fewer : taken + (Md.session n taken snapshot (controls ++ msg :: msgs)).samples.length <
      updateLimit) :
    ∃ feed, feed.lastUpdateId = upd.u ∧
      Md.session n taken snapshot (controls ++ msg :: msgs) = msgs.foldl (Md.receive n taken)
        { feed, phase := .steady, received := controls.length + 1, samples := [controls.length]
          bridged := some controls.length } := by
  rw [updates, List.filterMap_append, ← updates, ← updates, updates_controls hcontrols,
    List.nil_append, updates_cons_some hmsg] at gapless
  obtain ⟨feed, happly, -, hid⟩ :=
    applyUpdate_gapless (Md.readSide n) gapless wellFormed.1 wellFormed.2
  rw [if_neg (Int64.not_le.mpr first)] at hid
  refine ⟨feed, hid, ?_⟩
  have hchanged : feed.lastUpdateId ≠ snapshot.lastUpdateId := by
    rw [hid]
    exact (Int64.ne_of_lt first).symm
  have hbefore := cpp_controls n taken (s := { feed := snapshot }) hcontrols rfl
  rw [Nat.zero_add] at hbefore
  rw [Md.session, List.foldl_append, hbefore] at fewer ⊢
  have hsampled := cpp_samples (s := { feed := snapshot, received := controls.length })
    (Or.inr ⟨rfl, hchanged⟩) hmsg happly fewer
  rw [List.foldl_cons, hsampled]
  rfl

end First

/-- A stream without gaps and malformed fields, on which neither reaches the limit: the
two sample the same messages, and each bridges with the first update that advances the
snapshot's id, exactly if the first update of the stream, if there is one, does so. -/
theorem sampled_alike_iff (n : Numbers F) (taken : Nat) (id : Int64)
    (rustBook cppBook : OrderBook F) (msgs : List Message)
    (gapless : Gapless id (updates msgs))
    (wellFormed : ∀ upd ∈ updates msgs, WellFormed n upd)
    (rustFewer : (MainRs.session n ⟨id, rustBook⟩ msgs).samples.length < updateLimit)
    (cppFewer : taken + (Md.session n taken ⟨id, cppBook⟩ msgs).samples.length < updateLimit) :
    ((MainRs.session n ⟨id, rustBook⟩ msgs).samples =
          (Md.session n taken ⟨id, cppBook⟩ msgs).samples ∧
        BridgesAtFirst id msgs (MainRs.session n ⟨id, rustBook⟩ msgs) ∧
        BridgesAtFirst id msgs (Md.session n taken ⟨id, cppBook⟩ msgs)) ↔
      ∀ upd ∈ (updates msgs).head?, id < upd.u := by
  obtain ⟨controls, hcontrols, rfl | ⟨msg, upd, rest, rfl, hmsg⟩⟩ := first_update msgs
  · have hrust := rust_controls n (s := { feed := ⟨id, rustBook⟩ }) hcontrols rfl
    have hcpp := cpp_controls n taken (s := { feed := ⟨id, cppBook⟩ }) hcontrols rfl
    rw [MainRs.session, Md.session, hrust, hcpp, updates_controls hcontrols]
    simp [BridgesAtFirst]
  · have hupdates : updates (controls ++ msg :: rest) = upd :: updates rest := by
      rw [updates, List.filterMap_append, ← updates, ← updates, updates_controls hcontrols,
        List.nil_append, updates_cons_some hmsg]
    have hplace := findIdx_first id rest hcontrols hmsg
    obtain ⟨feed, hgapless, hid, hrust⟩ :=
      rust_first ⟨id, rustBook⟩ hcontrols hmsg gapless rustFewer
    have hbridged : Bridged (some controls.length)
        (MainRs.session n ⟨id, rustBook⟩ (controls ++ msg :: rest)) := by
      rw [hrust]
      exact rust_bridged ⟨by simp, rfl⟩
    rw [hupdates, List.head?_cons]
    constructor
    · rintro ⟨-, hat, -⟩ upd' hupd'
      cases hupd'
      exact hplace.mp (hat _ hbridged.2)
    · intro hfirst
      have hadvances := hfirst upd rfl
      have hwell := wellFormed upd (by simp [hupdates])
      obtain ⟨feed', hid', hcpp⟩ :=
        cpp_first ⟨id, cppBook⟩ hcontrols hmsg gapless hwell hadvances cppFewer
      have hbridged' : Bridged (some controls.length)
          (Md.session n taken ⟨id, cppBook⟩ (controls ++ msg :: rest)) := by
        rw [hcpp]
        exact cpp_bridged ⟨by simp, rfl⟩
      refine ⟨?_, ?_, ?_⟩
      · rw [hrust] at rustFewer ⊢
        rw [hcpp] at cppFewer ⊢
        refine agree_samples ⟨⟨rfl, rfl⟩, ?_, rfl, rfl⟩ hgapless
          (fun u hu => wellFormed u (by simp [hupdates, hu])) rustFewer cppFewer
        show feed'.lastUpdateId = feed.lastUpdateId
        rw [hid, hid', if_neg (Int64.not_le.mpr hadvances)]
      · intro i hi
        rw [hbridged.2] at hi
        cases hi
        exact hplace.mpr hadvances
      · intro i hi
        rw [hbridged'.2] at hi
        cases hi
        exact hplace.mpr hadvances

/-- No message of the examples has a level. -/
def noNumbers : Numbers Int where
  stod _ := none
  strtod _ := 0
  fromChars _ := none
  parseF64 _ := none
  notNan _ := true

theorem wellFormed_noLevels {upd : DepthUpdate} (h : upd.b = [] ∧ upd.a = []) :
    WellFormed noNumbers upd := by
  rw [WellFormed, h.1, h.2]
  exact ⟨⟨[], rfl⟩, ⟨[], rfl⟩⟩

/-- Behind the snapshot 5, a stream whose first update advances the id. -/
def prompt : List Message := [.ping, .text { U := 4, u := 6 }, .text { U := 7, u := 7 }]

theorem sampled_alike_iff_prompt :
    (MainRs.session noNumbers ⟨5, {}⟩ prompt).samples =
      (Md.session noNumbers 0 ⟨5, {}⟩ prompt).samples := by
  have hlevels : ∀ upd ∈ updates prompt, upd.b = [] ∧ upd.a = [] := by decide
  have hall := sampled_alike_iff noNumbers 0 5 {} {} prompt (by decide)
    (fun upd hupd => wellFormed_noLevels (hlevels upd hupd)) (by decide) (by decide)
  exact (hall.mpr (by decide)).1

/-- One whose first update the snapshot has already. -/
def late : List Message := [.text { U := 3, u := 4 }, .text { U := 5, u := 6 }]

theorem stale_update_sampled :
    ¬ ∀ msgs, Gapless 5 (updates msgs) → (∀ upd ∈ updates msgs, WellFormed noNumbers upd) →
      (MainRs.session noNumbers ⟨5, {}⟩ msgs).samples.length < updateLimit →
      0 + (Md.session noNumbers 0 ⟨5, {}⟩ msgs).samples.length < updateLimit →
      (MainRs.session noNumbers ⟨5, {}⟩ msgs).samples =
          (Md.session noNumbers 0 ⟨5, {}⟩ msgs).samples ∧
        BridgesAtFirst 5 msgs (MainRs.session noNumbers ⟨5, {}⟩ msgs) ∧
        BridgesAtFirst 5 msgs (Md.session noNumbers 0 ⟨5, {}⟩ msgs) := by
  intro h
  have hlevels : ∀ upd ∈ updates late, upd.b = [] ∧ upd.a = [] := by decide
  have hall := h late (by decide) (fun upd hupd => wellFormed_noLevels (hlevels upd hupd))
    (by decide) (by decide)
  exact absurd hall.1 (by decide)

end CppCodes.Guarantees.SampleAgreement
