import CppCodes.Source.RustCpp.Implementations

/-!
# The bridge loop

Source: rust_cpp/md.cpp:218-241; md2.cpp, md3.cpp and md5.cpp:315-341 have the same
loop. It hands in one message after the other until one advances the last id; what is
thrown is caught and the next message is read. The updates of an endless stream outgrow
a `long long`, so the update path is also stated for ids of any size, which
`applyUpdate_exact` connects with the code.
-/

set_option autoImplicit false

namespace CppCodes.Source.RustCpp

open CppCodes.Library

variable {F : Type} [LinearOrder F]

/-- A `DepthUpdate` with ids of any size. -/
structure ExactUpdate where
  U : Int
  u : Int
  pu : Option Int := none
  b : List RawLevel := []
  a : List RawLevel := []

/-- A `Feed` with an id of any size. -/
structure ExactFeed (F : Type) [LinearOrder F] where
  lastUpdateId : Int
  book : OrderBook F := {}

def DepthUpdate.exact (upd : DepthUpdate) : ExactUpdate where
  U := upd.U.toInt
  u := upd.u.toInt
  pu := upd.pu.map Int64.toInt
  b := upd.b
  a := upd.a

def Feed.exact (s : Feed F) : ExactFeed F where
  lastUpdateId := s.lastUpdateId.toInt
  book := s.book

variable [Zero F]

/-- `applyUpdate` for ids of any size. -/
def exactUpdate (readSide : List RawLevel → Except Failure (List (F × F))) (s : ExactFeed F)
    (upd : ExactUpdate) : ExactFeed F × Except Failure Unit :=
  let pu := upd.pu.getD 0
  if upd.u ≤ s.lastUpdateId then (s, .ok ())
  else
    let bridgedWindow := upd.U ≤ s.lastUpdateId + 1 ∧ s.lastUpdateId + 1 ≤ upd.u
    let bridgedPu := pu = s.lastUpdateId ∧ pu ≠ 0
    if ¬ (bridgedWindow ∨ bridgedPu) then (s, .error .sequenceGap)
    else
      match readSide upd.b with
      | .error e => (s, .error e)
      | .ok bidD =>
          match readSide upd.a with
          | .error e => (s, .error e)
          | .ok askD =>
              ({ lastUpdateId := upd.u
                 book :=
                  { bids := applyDeltas s.book.bids bidD
                    asks := applyDeltas s.book.asks askD } }, .ok ())

theorem pu_exact (upd : DepthUpdate) : upd.exact.pu.getD 0 = (upd.pu.getD 0).toInt := by
  cases h : upd.pu with
  | none => rw [DepthUpdate.exact, h, Option.map_none, Option.getD_none, Option.getD_none, Int64.toInt_zero]
  | some pu => rw [DepthUpdate.exact, h, Option.map_some, Option.getD_some, Option.getD_some]

theorem applyUpdate_exact (readSide : List RawLevel → Except Failure (List (F × F))) (s : Feed F)
    (upd : DepthUpdate) :
    exactUpdate readSide s.exact upd.exact =
      ((applyUpdate readSide s upd).1.exact, (applyUpdate readSide s upd).2) := by
  have hpu := pu_exact upd
  unfold exactUpdate applyUpdate
  dsimp only
  rw [hpu]
  have hstale : upd.exact.u ≤ s.exact.lastUpdateId ↔ upd.u ≤ s.lastUpdateId :=
    Int64.le_iff_toInt_le.symm
  by_cases hold : upd.u ≤ s.lastUpdateId
  · rw [if_pos hold, if_pos (hstale.mpr hold)]
  · have hfresh : s.lastUpdateId.toInt < upd.u.toInt := by
      rw [Int64.le_iff_toInt_le] at hold
      omega
    obtain ⟨hnext, htoInt⟩ := nextId_eq hfresh
    have hbridged : ((upd.exact.U ≤ s.exact.lastUpdateId + 1 ∧ s.exact.lastUpdateId + 1 ≤ upd.exact.u) ∨
          (upd.pu.getD 0).toInt = s.exact.lastUpdateId ∧ (upd.pu.getD 0).toInt ≠ 0) ↔
        (upd.U ≤ s.lastUpdateId + 1 ∧ s.lastUpdateId + 1 ≤ upd.u) ∨
          upd.pu.getD 0 = s.lastUpdateId ∧ upd.pu.getD 0 ≠ 0 := by
      rw [Int64.le_iff_toInt_le, Int64.le_iff_toInt_le, htoInt, ← Int64.toInt_inj,
        ← Int64.toInt_zero, Ne, Int64.toInt_inj]
      rfl
    rw [if_neg hold, if_neg (fun h => hold (hstale.mp h)), hnext]
    dsimp only
    rw [if_congr (not_congr hbridged) rfl rfl]
    split
    · rfl
    · have hb : upd.exact.b = upd.b := rfl
      have ha : upd.exact.a = upd.a := rfl
      rw [hb, ha]
      cases readSide upd.b with
      | error e => rfl
      | ok bidD =>
        dsimp only
        cases readSide upd.a with
        | error e => rfl
        | ok askD => rfl

/-! ## The loop -/

/-- A bridge phase reads on, has advanced the last id, or goes back to the snapshot. -/
inductive Bridge (σ τ : Type) where
  | reading (s : σ)
  | advanced (t : τ)
  | resnapshot

/-- The loop has been left. -/
def Bridge.Left {σ τ : Type} : Bridge σ τ → Prop
  | .reading _ => False
  | _ => True

/-- One message. -/
def bridgeRound {σ μ ε ι : Type} [DecidableEq ι] (lastId : σ → ι)
    (applyUpdateJson : σ → μ → σ × Except ε Unit) (s : σ) (payload : μ) : Bridge σ σ :=
  match applyUpdateJson s payload with
  | (s', .ok ()) => if lastId s' ≠ lastId s then .advanced s' else .reading s'
  | (s', .error _) => .reading s'

/-- After so many messages of a stream. -/
def bridge {σ τ μ : Type} (round : σ → μ → Bridge σ τ) (s : σ) (w : Nat → μ) : Nat → Bridge σ τ
  | 0 => .reading s
  | i + 1 =>
      match bridge round s w i with
      | .reading s' => round s' (w i)
      | left => left

/-- The implementations with this loop. -/
inductive CppLoop where
  | md
  | md2
  | md3
  | md5
  deriving DecidableEq

def CppLoop.implementation : CppLoop → Implementation
  | md => .md
  | md2 => .md2
  | md3 => .md3
  | md5 => .md5

def CppLoop.bridgeRound (l : CppLoop) (n : Numbers F) :
    Feed F → DepthUpdate → Bridge (Feed F) (Feed F) :=
  RustCpp.bridgeRound Feed.lastUpdateId (l.implementation.applyUpdate n)

/-- The same loop for ids of any size. -/
def CppLoop.exactRound (l : CppLoop) (n : Numbers F) :
    ExactFeed F → ExactUpdate → Bridge (ExactFeed F) (ExactFeed F) :=
  RustCpp.bridgeRound ExactFeed.lastUpdateId (exactUpdate (l.implementation.readSide n))

def Bridge.map {σ τ σ' τ' : Type} (f : σ → σ') (g : τ → τ') : Bridge σ τ → Bridge σ' τ'
  | .reading s => .reading (f s)
  | .advanced t => .advanced (g t)
  | .resnapshot => .resnapshot

theorem CppLoop.bridgeRound_exact (l : CppLoop) (n : Numbers F) (s : Feed F)
    (upd : DepthUpdate) :
    l.exactRound n s.exact upd.exact = (l.bridgeRound n s upd).map Feed.exact Feed.exact := by
  have happly : l.implementation.applyUpdate n s upd =
      RustCpp.applyUpdate (l.implementation.readSide n) s upd := by
    cases l <;> rfl
  have hexact := applyUpdate_exact (l.implementation.readSide n) s upd
  unfold exactRound bridgeRound RustCpp.bridgeRound
  rw [hexact, happly]
  rcases RustCpp.applyUpdate (l.implementation.readSide n) s upd with ⟨s', result⟩
  cases result with
  | error e => rfl
  | ok _ =>
    dsimp only
    by_cases hid : s'.lastUpdateId = s.lastUpdateId
    · have hexactId : s'.exact.lastUpdateId = s.exact.lastUpdateId := congrArg Int64.toInt hid
      rw [if_neg (not_not.mpr hid), if_neg (not_not.mpr hexactId)]
      rfl
    · have hexactId : s'.exact.lastUpdateId ≠ s.exact.lastUpdateId := fun h => hid (Int64.toInt_inj.mp h)
      rw [if_pos hid, if_pos hexactId]
      rfl

/-- On messages whose ids fit, the loop is that of the code. -/
theorem CppLoop.bridge_exact (l : CppLoop) (n : Numbers F) (s : Feed F)
    (w : Nat → DepthUpdate) (i : Nat) :
    bridge (l.exactRound n) s.exact (fun i => (w i).exact) i =
      (bridge (l.bridgeRound n) s w i).map Feed.exact Feed.exact := by
  induction i with
  | zero => rfl
  | succ i ih =>
    rw [bridge, bridge, ih]
    cases bridge (l.bridgeRound n) s w i with
    | reading s' => exact l.bridgeRound_exact n s' (w i)
    | advanced t => rfl
    | resnapshot => rfl

end CppCodes.Source.RustCpp
