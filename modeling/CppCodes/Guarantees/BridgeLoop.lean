import CppCodes.Source.RustCpp.Md4
import Mathlib.Algebra.Order.Ring.Rat
import Mathlib.Data.Nat.Find

/-!
# When the bridge loop ends

The feed does not change before the loop is left, so the loop is left with the first
update that can be applied to the snapshot. In a stream without gaps that is the one
with the id behind the snapshot's, if the stream begins early enough. A stream that
begins later is refused message by message: "sequence gap; need resnapshot" is thrown,
caught and followed by the next read. md4.cpp takes a new snapshot there, and is left
in every case (`Md4.bridge_left`).
-/

set_option autoImplicit false

namespace CppCodes.Guarantees.BridgeLoop

open CppCodes.Library CppCodes.Source.RustCpp

/-- Every update begins behind the one before it. -/
structure Contiguous (w : Nat → ExactUpdate) : Prop where
  ranges : ∀ i, (w i).U ≤ (w i).u
  follows : ∀ i, (w (i + 1)).U = (w i).u + 1

namespace Contiguous

variable {w : Nat → ExactUpdate}

theorem begins_le (h : Contiguous w) (i : Nat) : (w 0).U ≤ (w i).U := by
  induction i with
  | zero => exact le_refl _
  | succ i ih =>
    have hrange := h.ranges i
    have hfollows := h.follows i
    omega

/-- The ids outgrow every bound. -/
theorem begins_add_le (h : Contiguous w) (i : Nat) : (w 0).U + i ≤ (w i).u := by
  induction i with
  | zero =>
    have hrange := h.ranges 0
    omega
  | succ i ih =>
    have hrange := h.ranges (i + 1)
    have hfollows := h.follows i
    omega

theorem ends_lt (h : Contiguous w) {i j : Nat} (hij : i < j) : (w i).u < (w j).U := by
  induction j with
  | zero => omega
  | succ j ih =>
    have hfollows := h.follows j
    rcases Nat.lt_or_eq_of_le (Nat.lt_succ_iff.mp hij) with hlt | rfl
    · have hbefore := ih hlt
      have hrange := h.ranges j
      omega
    · omega

/-- Every id from the first one on is in one of the updates. -/
theorem covers (h : Contiguous w) {id : Int} (first : (w 0).U ≤ id) :
    ∃ i, (w i).U ≤ id ∧ id ≤ (w i).u := by
  have hreach : ∃ i, id ≤ (w i).u := by
    refine ⟨(id - (w 0).U).toNat, ?_⟩
    have hgrow := h.begins_add_le (id - (w 0).U).toNat
    omega
  -- the first update that reaches so far
  have hfirst := Nat.find_spec hreach
  refine ⟨Nat.find hreach, ?_, hfirst⟩
  cases hfound : Nat.find hreach with
  | zero => exact first
  | succ i =>
    have hbefore : ¬ id ≤ (w i).u := Nat.find_min hreach (by omega)
    have hfollows := h.follows i
    omega

/-- Only one update contains an id. -/
theorem unique (h : Contiguous w) {id : Int} {i j : Nat} (hi : (w i).U ≤ id ∧ id ≤ (w i).u)
    (hj : (w j).U ≤ id ∧ id ≤ (w j).u) : i = j := by
  rcases Nat.lt_trichotomy i j with hlt | rfl | hgt
  · have := h.ends_lt hlt
    omega
  · rfl
  · have := h.ends_lt hgt
    omega

end Contiguous

variable {F : Type} [LinearOrder F] [Zero F]

/-- The numbers of both sides can be read. -/
def Readable (readSide : List RawLevel → Except Failure (List (F × F))) (upd : ExactUpdate) : Prop :=
  (∃ bidD, readSide upd.b = .ok bidD) ∧ ∃ askD, readSide upd.a = .ok askD

/-- The update can be applied after the id `last`. -/
def Accepted (readSide : List RawLevel → Except Failure (List (F × F))) (last : Int)
    (upd : ExactUpdate) : Prop :=
  last < upd.u ∧ (upd.U ≤ last + 1 ∨ upd.pu = some last ∧ last ≠ 0) ∧ Readable readSide upd

/-- The stream begins at the id behind `last` or earlier and the update with that id can be
read, or an update from behind `last` that can be read names `last` as its predecessor. -/
def Meets (readSide : List RawLevel → Except Failure (List (F × F))) (last : Int)
    (w : Nat → ExactUpdate) : Prop :=
  ((w 0).U ≤ last + 1 ∧
      ∀ i, (w i).U ≤ last + 1 → last + 1 ≤ (w i).u → Readable readSide (w i)) ∨
    ∃ i, last < (w i).u ∧ (w i).pu = some last ∧ last ≠ 0 ∧ Readable readSide (w i)

section Round

variable {l : CppLoop} {n : Numbers F} {s : ExactFeed F} {upd : ExactUpdate}

theorem linked_iff {pu : Option Int} {last : Int} :
    (pu.getD 0 = last ∧ pu.getD 0 ≠ 0) ↔ pu = some last ∧ last ≠ 0 := by
  cases pu with
  | none =>
    constructor
    · intro hboth
      obtain ⟨-, h⟩ := hboth
      exact absurd rfl h
    · intro hboth
      obtain ⟨h, -⟩ := hboth
      cases h
  | some pu =>
    rw [Option.getD_some, Option.some.injEq]
    constructor
    · intro hboth
      obtain ⟨rfl, h⟩ := hboth
      exact ⟨rfl, h⟩
    · intro hboth
      obtain ⟨rfl, h⟩ := hboth
      exact ⟨rfl, h⟩

theorem exactUpdate_accepted {readSide : List RawLevel → Except Failure (List (F × F))}
    (h : Accepted readSide s.lastUpdateId upd) :
    ∃ t, exactUpdate readSide s upd = (t, .ok ()) ∧ t.lastUpdateId = upd.u := by
  obtain ⟨hfresh, hbridged, ⟨bidD, hbids⟩, askD, hasks⟩ := h
  have hcheck : (upd.U ≤ s.lastUpdateId + 1 ∧ s.lastUpdateId + 1 ≤ upd.u) ∨
      upd.pu.getD 0 = s.lastUpdateId ∧ upd.pu.getD 0 ≠ 0 := by
    rcases hbridged with hwindow | hlinked
    · exact Or.inl ⟨hwindow, hfresh⟩
    · exact Or.inr (linked_iff.mpr hlinked)
  unfold exactUpdate
  dsimp only
  rw [if_neg (not_le.mpr hfresh), if_neg (not_not.mpr hcheck), hbids, hasks]
  exact ⟨_, rfl, rfl⟩

theorem exactUpdate_refused {readSide : List RawLevel → Except Failure (List (F × F))}
    (h : ¬ Accepted readSide s.lastUpdateId upd) : (exactUpdate readSide s upd).1 = s := by
  unfold exactUpdate
  dsimp only
  split
  · rfl
  · next hfresh =>
    split
    · rfl
    · next hcheck =>
      have hbridged : upd.U ≤ s.lastUpdateId + 1 ∨ upd.pu = some s.lastUpdateId ∧ s.lastUpdateId ≠ 0 :=
        (not_not.mp hcheck).imp And.left linked_iff.mp
      cases hbids : readSide upd.b with
      | error e => rfl
      | ok bidD =>
        dsimp only
        cases hasks : readSide upd.a with
        | error e => rfl
        | ok askD => exact absurd ⟨not_le.mp hfresh, hbridged, ⟨bidD, hbids⟩, askD, hasks⟩ h

theorem exactRound_accepted (h : Accepted (l.implementation.readSide n) s.lastUpdateId upd) :
    (l.exactRound n s upd).Left := by
  obtain ⟨t, happly, hid⟩ := exactUpdate_accepted h
  have hchanged : t.lastUpdateId ≠ s.lastUpdateId := by
    rw [hid]
    exact Int.ne_of_gt h.1
  unfold CppLoop.exactRound bridgeRound
  rw [happly]
  dsimp only
  rw [if_pos hchanged]
  trivial

theorem exactRound_refused (h : ¬ Accepted (l.implementation.readSide n) s.lastUpdateId upd) :
    l.exactRound n s upd = .reading s := by
  have hsame := exactUpdate_refused h
  unfold CppLoop.exactRound bridgeRound
  rcases hresult : exactUpdate (l.implementation.readSide n) s upd with ⟨t, result⟩
  rw [hresult] at hsame
  dsimp only at hsame
  subst hsame
  cases result with
  | error e => rfl
  | ok _ =>
    dsimp only
    rw [if_neg (not_not.mpr rfl)]

end Round

section Loop

variable {l : CppLoop} {n : Numbers F} {s : ExactFeed F} {w : Nat → ExactUpdate}

/-- Before the loop is left it has the snapshot. -/
theorem bridge_reading (i : Nat) :
    bridge (l.exactRound n) s w i = .reading s ∨ (bridge (l.exactRound n) s w i).Left := by
  induction i with
  | zero => exact Or.inl rfl
  | succ i ih =>
    rcases ih with hreading | hleft
    · rw [bridge, hreading]
      dsimp only
      by_cases h : Accepted (l.implementation.readSide n) s.lastUpdateId (w i)
      · exact Or.inr (exactRound_accepted h)
      · exact Or.inl (exactRound_refused h)
    · rw [bridge]
      cases hi : bridge (l.exactRound n) s w i with
      | reading t =>
        rw [hi] at hleft
        exact hleft.elim
      | advanced t => exact Or.inr trivial
      | resnapshot => exact Or.inr trivial

theorem bridge_refused (h : ∀ i, ¬ Accepted (l.implementation.readSide n) s.lastUpdateId (w i)) (i : Nat) :
    bridge (l.exactRound n) s w i = .reading s := by
  induction i with
  | zero => rfl
  | succ i ih =>
    rw [bridge, ih]
    exact exactRound_refused (h i)

theorem left_iff_accepted :
    (∃ i, (bridge (l.exactRound n) s w i).Left) ↔
      ∃ i, Accepted (l.implementation.readSide n) s.lastUpdateId (w i) := by
  constructor
  · intro hboth
    obtain ⟨i, hleft⟩ := hboth
    by_contra hnone
    rw [bridge_refused (not_exists.mp hnone) i] at hleft
    exact hleft
  · intro hboth
    obtain ⟨i, haccepted⟩ := hboth
    rcases bridge_reading (l := l) (n := n) (s := s) (w := w) i with hreading | hleft
    · refine ⟨i + 1, ?_⟩
      rw [bridge, hreading]
      exact exactRound_accepted haccepted
    · exact ⟨i, hleft⟩

end Loop

omit [LinearOrder F] [Zero F] in
theorem accepted_iff_meets {readSide : List RawLevel → Except Failure (List (F × F))} {last : Int}
    {w : Nat → ExactUpdate} (stream : Contiguous w) :
    (∃ i, Accepted readSide last (w i)) ↔ Meets readSide last w := by
  constructor
  · rintro ⟨i, hfresh, hwindow | ⟨hlinked, hzero⟩, hreadable⟩
    · refine Or.inl ⟨(stream.begins_le i).trans hwindow, fun j hlow hhigh => ?_⟩
      rw [stream.unique ⟨hlow, hhigh⟩ ⟨hwindow, hfresh⟩]
      exact hreadable
    · exact Or.inr ⟨i, hfresh, hlinked, hzero, hreadable⟩
  · rintro (⟨hfirst, hreadable⟩ | ⟨i, hfresh, hlinked, hzero, hreadable⟩)
    · obtain ⟨i, hlow, hhigh⟩ := stream.covers hfirst
      exact ⟨i, hhigh, Or.inl hlow, hreadable i hlow hhigh⟩
    · exact ⟨i, hfresh, Or.inr ⟨hlinked, hzero⟩, hreadable⟩

/-- The bridge phase of a stream without gaps ends exactly if the stream meets the
snapshot. -/
theorem bridge_ends_iff (l : CppLoop) (n : Numbers F) (s : ExactFeed F) (w : Nat → ExactUpdate)
    (stream : Contiguous w) :
    (∃ i, (bridge (l.exactRound n) s w i).Left) ↔ Meets (l.implementation.readSide n) s.lastUpdateId w :=
  left_iff_accepted.trans (accepted_iff_meets stream)

/-- The only number that occurs is 1. -/
def oneText : Numbers ℚ where
  stod := ([("1", 1)].lookup ·)
  strtod t := ([("1", 1)].lookup t).getD 0
  fromChars := ([("1", 1)].lookup ·)
  parseF64 := ([("1", 1)].lookup ·)
  notNan _ := true

/-- One id an update, from `first` on. -/
def counting (first : Int) (i : Nat) : ExactUpdate where
  U := first + i
  u := first + i
  b := [("1", "1")]

theorem counting_contiguous (first : Int) : Contiguous (counting first) where
  ranges _ := le_refl _
  follows i := by
    show first + ((i + 1 : Nat) : Int) = first + i + 1
    omega

theorem counting_readable (l : CppLoop) (first : Int) (i : Nat) :
    Readable (l.implementation.readSide oneText) (counting first i) := by
  cases l <;> exact ⟨⟨_, rfl⟩, ⟨_, rfl⟩⟩

/-- Snapshot 5, stream from 1 on. -/
theorem bridge_ends_early_stream :
    ∃ i, (bridge (CppLoop.md.exactRound oneText) ⟨5, {}⟩ (counting 1) i).Left :=
  (bridge_ends_iff .md oneText ⟨5, {}⟩ (counting 1) (counting_contiguous 1)).mpr
    (Or.inl ⟨by decide, fun i _ _ => counting_readable .md 1 i⟩)

/-- Snapshot 5, stream from 10 on: every update is refused. -/
theorem bridge_stays_behind_gap :
    Contiguous (counting 10) ∧
      ∀ l i, bridge (CppLoop.exactRound l oneText) ⟨5, {}⟩ (counting 10) i = .reading ⟨5, {}⟩ := by
  refine ⟨counting_contiguous 10, fun l i => bridge_refused (fun j => ?_) i⟩
  rintro ⟨-, hwindow | ⟨hlinked, -⟩, -⟩
  · have hfirst : (10 : Int) + j ≤ 5 + 1 := hwindow
    omega
  · cases hlinked

end CppCodes.Guarantees.BridgeLoop
