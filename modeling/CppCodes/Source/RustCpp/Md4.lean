import CppCodes.Source.RustCpp.Bridge

/-!
# The update path and the bridge loop of md4.cpp

Source: rust_cpp/md4.cpp:65-81, 150-196 and 310-364. The tests of the update path are
those of the other implementations. The levels come from an on-demand document whose
arrays `b` and `a` are opened together before either is walked; what simdjson hands out
then is the parameter `Walk`. Whatever is thrown in the bridge loop, and the 201st
stale update, asks for a new snapshot.
-/

set_option autoImplicit false

namespace CppCodes.Source.RustCpp.Md4

open CppCodes.Library

variable {F : Type} [LinearOrder F] [Zero F]

/-- The texts that the loops over `b` and `a` get, or `none` where simdjson throws. -/
abbrev Walk := DepthUpdate → Option (List RawLevel × List RawLevel)

inductive Error where
  | failure (e : Failure)
  | simdjson
  deriving DecidableEq

/-- `to_double` of a JSON string. -/
def toDouble (n : Numbers F) : String → F := fromCharsOrStrtod n

def deltas (n : Numbers F) (raw : List RawLevel) : List (F × F) :=
  raw.map fun (p, s) => (toDouble n p, toDouble n s)

def applyUpdateJson (walk : Walk) (n : Numbers F) (s : Feed F) (upd : DepthUpdate) :
    Feed F × Except Error Unit :=
  let pu := upd.pu.getD 0
  if upd.u ≤ s.lastUpdateId then (s, .ok ())
  else
    match nextId s.lastUpdateId with
    | none => (s, .error (.failure .overflow))
    | some next =>
        let bridgedWindow := upd.U ≤ next ∧ next ≤ upd.u
        let bridgedPu := pu = s.lastUpdateId ∧ pu ≠ 0
        if ¬ (bridgedWindow ∨ bridgedPu) then (s, .error (.failure .sequenceGap))
        else
          match walk upd with
          | none => (s, .error .simdjson)
          | some (b, a) =>
              ({ lastUpdateId := upd.u
                 book :=
                  { bids := applyDeltas s.book.bids (deltas n b)
                    asks := applyDeltas s.book.asks (deltas n a) } }, .ok ())

/-- `BRIDGE_STALE_LIMIT`. -/
def bridgeStaleLimit : Nat := 200

/-- One message, with `bridge_stale` beside the feed. -/
def bridgeRound (walk : Walk) (n : Numbers F) (s : Feed F × Nat) (payload : DepthUpdate) :
    Bridge (Feed F × Nat) (Feed F) :=
  match applyUpdateJson walk n s.1 payload with
  | (s', .ok ()) =>
      if s'.lastUpdateId ≠ s.1.lastUpdateId then .advanced s'
      else if s.2 + 1 > bridgeStaleLimit then .resnapshot
      else .reading (s', s.2 + 1)
  | (_, .error _) => .resnapshot

theorem bridge_stale {walk : Walk} {n : Numbers F} {s s' : Feed F} {w : Nat → DepthUpdate} {i k : Nat}
    (h : bridge (bridgeRound walk n) (s, 0) w i = .reading (s', k)) :
    k = i ∧ i ≤ bridgeStaleLimit := by
  induction i generalizing s' k with
  | zero =>
    cases h
    exact ⟨rfl, Nat.zero_le _⟩
  | succ i ih =>
    rw [bridge] at h
    cases hbefore : bridge (bridgeRound walk n) (s, 0) w i with
    | advanced t =>
      rw [hbefore] at h
      cases h
    | resnapshot =>
      rw [hbefore] at h
      cases h
    | reading before =>
      obtain ⟨t, stale⟩ := before
      obtain ⟨rfl, -⟩ := ih hbefore
      rw [hbefore] at h
      dsimp only [bridgeRound] at h
      rcases hresult : applyUpdateJson walk n t (w stale) with ⟨u, result⟩
      rw [hresult] at h
      cases result with
      | error e => cases h
      | ok _ =>
        dsimp only at h
        split at h
        · cases h
        · split at h
          · cases h
          · next hlimit =>
            cases h
            exact ⟨rfl, by omega⟩

/-- The loop of md4.cpp is left with the 201st message at the latest. -/
theorem bridge_left (walk : Walk) (n : Numbers F) (s : Feed F) (w : Nat → DepthUpdate) :
    (bridge (bridgeRound walk n) (s, 0) w (bridgeStaleLimit + 1)).Left := by
  cases h : bridge (bridgeRound walk n) (s, 0) w (bridgeStaleLimit + 1) with
  | reading t =>
    obtain ⟨-, hle⟩ := bridge_stale h
    omega
  | advanced t => trivial
  | resnapshot => trivial

end CppCodes.Source.RustCpp.Md4
