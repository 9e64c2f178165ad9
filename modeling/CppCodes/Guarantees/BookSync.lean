import CppCodes.Library.ChangeLog
import CppCodes.Source.RustCpp.Implementations
import Mathlib.Algebra.Order.Ring.Rat

/-!
# The book follows the exchange

Whatever updates arrive, in whatever order, the book is that of the exchange after
the change numbered `last_update_id`: stale updates do nothing, overlapping ones
list values that are current at their end, and one that would leave a change out is
refused.
-/

set_option autoImplicit false

namespace CppCodes.Guarantees.BookSync

open CppCodes.Library
open CppCodes.Source.RustCpp

inductive BookSide where
  | bid
  | ask
  deriving DecidableEq

variable {F : Type} [LinearOrder F] [Zero F]

/-- The entry of a level; size 0 is no level. -/
def level (size : F) : Option F := if size = 0 then none else some size

/-- One side of the book has the levels with these sizes, and no others. -/
def HoldsSide (side : SortedMap F F) (f : F → F) : Prop := ∀ p, side.lookup p = level (f p)

/-- The book is the one with these sizes. -/
structure Holds (book : OrderBook F) (f : BookSide × F → F) : Prop where
  bids : HoldsSide book.bids fun p => f (.bid, p)
  asks : HoldsSide book.asks fun p => f (.ask, p)

/-- The levels of an update with their sides. -/
def located (bids asks : List (F × F)) : List ((BookSide × F) × F) :=
  bids.map (fun d => ((.bid, d.1), d.2)) ++ asks.map fun d => ((.ask, d.1), d.2)

/-- An update the exchange may send: it lists every level changed in its range with
the size at the end of the range, the texts read as these numbers exactly, and what
it names as its predecessor leaves no change out. -/
structure Valid (readSide : List RawLevel → Except Failure (List (F × F)))
    (log : ChangeLog (BookSide × F) F) (upd : DepthUpdate) : Prop where
  range : upd.U.toInt ≤ upd.u.toInt
  levels : ∃ bids asks, readSide upd.b = .ok bids ∧ readSide upd.a = .ok asks ∧
    log.Reports upd.U.toInt upd.u.toInt (located bids asks)
  predecessor : ∀ pu, upd.pu = some pu → pu ≠ 0 → log.Unused (pu.toInt + 1) (upd.U.toInt - 1)

/-- The book is that of the exchange after the change numbered `last_update_id`. -/
structure InSync (log : ChangeLog (BookSide × F) F) (s : Feed F) : Prop where
  numbered : 0 ≤ s.lastUpdateId.toInt
  holds : Holds s.book (log.after s.lastUpdateId.toInt.toNat)

/-- What may be said of a call with a valid update. -/
structure Kept (log : ChangeLog (BookSide × F) F) (s : Feed F) (upd : DepthUpdate)
    (r : Feed F × Except Failure Unit) : Prop where
  inSync : InSync log r.1
  monotone : s.lastUpdateId.toInt ≤ r.1.lastUpdateId.toInt
  stale : upd.u.toInt ≤ s.lastUpdateId.toInt → r = (s, .ok ())
  refused : ∀ e, r.2 = .error e → s.lastUpdateId.toInt + 1 < upd.U.toInt ∧
    ¬ Linked s.lastUpdateId upd ∧ r.1 = s
  noOverflow : r.2 ≠ .error .overflow

theorem applyDeltas_holds {side : SortedMap F F} {f : F → F} (h : HoldsSide side f)
    (deltas : List (F × F)) :
    HoldsSide (applyDeltas side deltas) (ChangeLog.patch f deltas) := by
  induction deltas generalizing side f with
  | nil => exact h
  | cons d rest ih =>
    refine ih ?_
    intro p
    dsimp only
    by_cases hzero : d.2 = 0
    · rw [if_pos hzero, SortedMap.lookup_erase, h p]
      by_cases hp : p = d.1
      · rw [if_pos hp, hp, Function.update_self, level, if_pos hzero]
      · rw [if_neg hp, Function.update_of_ne hp]
    · rw [if_neg hzero, SortedMap.lookup_insert, h p]
      by_cases hp : p = d.1
      · rw [if_pos hp, hp, Function.update_self, level, if_neg hzero]
      · rw [if_neg hp, Function.update_of_ne hp]

omit [Zero F] in
/-- Only the entries of a side touch the side. -/
theorem patch_side (f : BookSide × F → F) (side other : BookSide) (deltas : List (F × F)) (p : F) :
    ChangeLog.patch f (deltas.map fun d => ((other, d.1), d.2)) (side, p) =
      if side = other then ChangeLog.patch (fun p => f (side, p)) deltas p else f (side, p) := by
  induction deltas generalizing f with
  | nil => simp [ChangeLog.patch]
  | cons d rest ih =>
    have hstep : ChangeLog.patch f ((d :: rest).map fun d => ((other, d.1), d.2)) =
        ChangeLog.patch (Function.update f (other, d.1) d.2)
          (rest.map fun d => ((other, d.1), d.2)) := rfl
    have hone : ChangeLog.patch (fun p => f (side, p)) (d :: rest) =
        ChangeLog.patch (Function.update (fun p => f (side, p)) d.1 d.2) rest := rfl
    rw [hstep, ih, hone]
    by_cases hside : side = other
    · subst hside
      rw [if_pos rfl, if_pos rfl]
      congr 1
      funext q
      by_cases hq : q = d.1
      · rw [hq, Function.update_self, Function.update_self]
      · rw [Function.update_of_ne hq, Function.update_of_ne (by simpa using hq)]
    · rw [if_neg hside, if_neg hside, Function.update_of_ne (by simp [hside])]

omit [Zero F] in
theorem patch_located (f : BookSide × F → F) (bids asks : List (F × F)) (p : F) :
    ChangeLog.patch f (located bids asks) (.bid, p) =
        ChangeLog.patch (fun p => f (.bid, p)) bids p ∧
      ChangeLog.patch f (located bids asks) (.ask, p) =
        ChangeLog.patch (fun p => f (.ask, p)) asks p := by
  have hsplit : ChangeLog.patch f (located bids asks) =
      ChangeLog.patch (ChangeLog.patch f (bids.map fun d => ((.bid, d.1), d.2)))
        (asks.map fun d => ((.ask, d.1), d.2)) := List.foldl_append
  rw [hsplit]
  constructor
  · rw [patch_side, if_neg (by decide), patch_side, if_pos rfl]
  · rw [patch_side, if_pos rfl]
    congr 1
    funext q
    rw [patch_side, if_neg (by decide)]

/-- One update. -/
theorem effect_kept {readSide : List RawLevel → Except Failure (List (F × F))}
    {log : ChangeLog (BookSide × F) F} {s : Feed F} {upd : DepthUpdate}
    {r : Feed F × Except Failure Unit} (sync : InSync log s) (valid : Valid readSide log upd)
    (effect : Effect readSide s upd r) : Kept log s upd r := by
  obtain ⟨bids, asks, hbids, hasks, hreports⟩ := valid.levels
  cases effect with
  | stale old => exact ⟨sync, le_refl _, fun _ => rfl, by simp, by simp⟩
  | gap fresh beyond unlinked =>
    refine ⟨sync, le_refl _, ?_, fun _ _ => ⟨beyond, unlinked, rfl⟩, by simp⟩
    intro hold
    omega
  | unreadable e fresh bad =>
    rw [hbids, hasks] at bad
    rcases bad with hbad | hbad
    · cases hbad
    · cases hbad
  | applied bidD askD fresh bridged readBids readAsks =>
    rw [hbids] at readBids
    rw [hasks] at readAsks
    cases readBids
    cases readAsks
    have hnumbered := sync.numbered
    have hunused : log.Unused (s.lastUpdateId.toInt.toNat + 1) (upd.U.toInt - 1) := by
      intro k hfirst hlast
      rcases bridged with hwindow | ⟨hlink, hne⟩
      · omega
      · cases hpu : upd.pu with
        | none =>
          rw [hpu] at hne
          exact absurd rfl hne
        | some pu =>
          rw [hpu, Option.getD_some] at hlink hne
          exact valid.predecessor pu hpu hne k (by rw [hlink]; omega) hlast
    have hcaught := log.patch_reports hreports (i := s.lastUpdateId.toInt.toNat) (by omega) hunused
    refine ⟨⟨by show 0 ≤ upd.u.toInt; omega, ?_, ?_⟩, le_of_lt fresh, ?_, by simp, by simp⟩
    · intro p
      have hside := applyDeltas_holds sync.holds.bids bids p
      rw [← (patch_located _ bids asks p).1, hcaught] at hside
      exact hside
    · intro p
      have hside := applyDeltas_holds sync.holds.asks asks p
      rw [← (patch_located _ bids asks p).2, hcaught] at hside
      exact hside
    · intro hold
      omega

/-- In every implementation and for every exchange, a book that starts as the one
after some change is, after any updates in any order, the one after the change
numbered `last_update_id`; and so it stays with any further update. -/
theorem book_follows_exchange (impl : Implementation) (n : Numbers F)
    (log : ChangeLog (BookSide × F) F) (s : Feed F) (start : InSync log s)
    (updates : List DepthUpdate) (valid : ∀ upd ∈ updates, Valid (impl.readSide n) log upd)
    (t : Feed F) (outcomes : List (Except Failure Unit))
    (run : (impl.machine n).Run s updates t outcomes) :
    InSync log t ∧ ∀ upd, Valid (impl.readSide n) log upd →
      Kept log t upd (impl.applyUpdate n t upd) := by
  have hsync : InSync log t := by
    refine run.induction (P := fun updates t _ =>
      (∀ upd ∈ updates, Valid (impl.readSide n) log upd) → InSync log t) (fun _ => start) ?_ valid
    intro updates t outcomes upd u seen hrun ih hstep hvalid
    have hbefore := ih fun upd hupd => hvalid upd (List.mem_append_left _ hupd)
    have hkept := effect_kept hbefore (hvalid upd (by simp)) (impl.applyUpdate_spec n t upd)
    simp only [Implementation.machine, Option.some.injEq, Prod.mk.injEq] at hstep
    rw [← hstep.1]
    exact hkept.inSync
  exact ⟨hsync, fun upd hupd => effect_kept hsync hupd (impl.applyUpdate_spec n t upd)⟩

/-! ## Three changes, seen through four updates -/

/-- A bid at 101, an ask at 102, and the bid withdrawn. -/
def threeChanges : ChangeLog (BookSide × ℚ) ℚ where
  initial _ := 0
  change k :=
    match (k : ℕ) with
    | 1 => some ((.bid, 101), 2)
    | 2 => some ((.ask, 102), 1)
    | 3 => some ((.bid, 101), 0)
    | _ => none

/-- `std::stod` and its relatives on the five texts used below. -/
def fiveTexts : Numbers ℚ where
  stod := ([("101", 101), ("102", 102), ("2", 2), ("1", 1), ("0", 0)].lookup ·)
  strtod s := ([("101", 101), ("102", 102), ("2", 2), ("1", 1), ("0", 0)].lookup s).getD 0
  fromChars := ([("101", 101), ("102", 102), ("2", 2), ("1", 1), ("0", 0)].lookup ·)
  parseF64 := ([("101", 101), ("102", 102), ("2", 2), ("1", 1), ("0", 0)].lookup ·)
  notNan _ := true

/-- In turn: applied, applied although it starts too early, stale, refused. -/
def fourUpdates : List DepthUpdate :=
  [{ U := 1, u := 2, b := [("101", "2")], a := [("102", "1")] },
    { U := 2, u := 3, b := [("101", "0")], a := [("102", "1")] },
    { U := 1, u := 2, b := [("101", "2")], a := [("102", "1")] },
    { U := 5, u := 5 }]

theorem threeChanges_cases {k : ℕ+} {e : (BookSide × ℚ) × ℚ}
    (h : threeChanges.change k = some e) :
    ((k : ℕ) = 1 ∧ e = ((.bid, 101), 2)) ∨ ((k : ℕ) = 2 ∧ e = ((.ask, 102), 1)) ∨
      ((k : ℕ) = 3 ∧ e = ((.bid, 101), 0)) := by
  simp only [threeChanges] at h
  split at h <;> simp_all

theorem fourUpdates_valid :
    ∀ upd ∈ fourUpdates, Valid (Implementation.md.readSide fiveTexts) threeChanges upd := by
  have hcomplete : ∀ (first last : Int) (listed : List ((BookSide × ℚ) × ℚ)),
      (first ≤ 1 → 1 ≤ last → (.bid, 101) ∈ listed.map Prod.fst) →
      (first ≤ 2 → 2 ≤ last → (.ask, 102) ∈ listed.map Prod.fst) →
      (first ≤ 3 → 3 ≤ last → (.bid, 101) ∈ listed.map Prod.fst) →
      ∀ l, threeChanges.Changed first last l → l ∈ listed.map Prod.fst := by
    intro first last listed h1 h2 h3 l hparts
    obtain ⟨k, hfirst, hlast, v, hset⟩ := hparts
    rcases threeChanges_cases hset with ⟨hk, he⟩ | ⟨hk, he⟩ | ⟨hk, he⟩
    · cases he
      exact h1 (by omega) (by omega)
    · cases he
      exact h2 (by omega) (by omega)
    · cases he
      exact h3 (by omega) (by omega)
  intro upd hupd
  simp only [fourUpdates, List.mem_cons, List.not_mem_nil, or_false] at hupd
  rcases hupd with rfl | rfl | rfl | rfl
  · refine ⟨by decide, ⟨[(101, 2)], [(102, 1)], by decide +kernel, by decide +kernel, ?_⟩, by simp⟩
    exact ⟨by decide +kernel, hcomplete _ _ _ (by decide +kernel) (by decide +kernel)
      (by decide +kernel)⟩
  · refine ⟨by decide, ⟨[(101, 0)], [(102, 1)], by decide +kernel, by decide +kernel, ?_⟩, by simp⟩
    exact ⟨by decide +kernel, hcomplete _ _ _ (by decide +kernel) (by decide +kernel)
      (by decide +kernel)⟩
  · refine ⟨by decide, ⟨[(101, 2)], [(102, 1)], by decide +kernel, by decide +kernel, ?_⟩, by simp⟩
    exact ⟨by decide +kernel, hcomplete _ _ _ (by decide +kernel) (by decide +kernel)
      (by decide +kernel)⟩
  · refine ⟨by decide, ⟨[], [], rfl, rfl, ?_⟩, by simp⟩
    exact ⟨by decide +kernel, hcomplete _ _ _ (by decide +kernel) (by decide +kernel)
      (by decide +kernel)⟩

theorem book_follows_exchange_four_updates :
    ∃ t, (Implementation.md.machine fiveTexts).Run {} fourUpdates t
        [.ok (), .ok (), .ok (), .error .sequenceGap] ∧
      t.lastUpdateId = 3 ∧ InSync threeChanges t := by
  have hrun := Machine.run_of_isSome (m := Implementation.md.machine fiveTexts) {} fourUpdates
    (by decide +kernel)
  have hstart : InSync threeChanges {} := ⟨by decide, fun _ => rfl, fun _ => rfl⟩
  refine ⟨_, hrun, ?_, (book_follows_exchange .md fiveTexts threeChanges {} hstart fourUpdates
    fourUpdates_valid _ _ hrun).1⟩
  decide +kernel

end CppCodes.Guarantees.BookSync
