import CppCodes.Source.HftTest.OmsEngine

/-!
# Reports between the OMS and thread A

The outbound ring takes a report if it has a free slot, and the OMS does not look
whether it did. One step keeps what was popped and what is queued equal to what
was parsed, unless it parses a report that finds no room; from then on the two
never agree again.
-/

set_option autoImplicit false

namespace CppCodes.System.Delivery

open CppCodes.Library
open CppCodes.Source.HftTest
open CppCodes.Source.HftTest.OmsEngine

/-- What thread A has got or can still pop is what was parsed. -/
def Delivered (s : State) (trace : List Event) : Prop :=
  popped trace ++ s.engine.outbound.contents = parsed trace

/-- A step that parses a valid report finds a free slot for it. -/
def RoomForReport (s : State) : Action → Prop
  | .parse now => ∀ data rest ex, splitFrame (unread s) = some (data, rest) →
      execUpdateOf data now = some ex →
      s.engine.outbound.contents.length < SPSCRing.capacity kRingDepthLog - 1
  | _ => True

instance : ∀ s a, Decidable (RoomForReport s a)
  | s, .parse now =>
      match hsplit : splitFrame (unread s) with
      | none => isTrue (by simp [RoomForReport, hsplit])
      | some (data, rest) =>
          match hex : execUpdateOf data now with
          | none => isTrue (by
              intro data' rest' ex hsplit' hex'
              rw [hsplit] at hsplit'
              cases hsplit'
              rw [hex] at hex'
              cases hex')
          | some ex => decidable_of_iff
              (s.engine.outbound.contents.length < SPSCRing.capacity kRingDepthLog - 1)
              ⟨fun h _ _ _ _ _ => h, fun h => h data rest ex hsplit hex⟩
  | _, .order _ _ _ | _, .send _ | _, .recv _ | _, .popExec => isTrue trivial

theorem parsed_append (before after : List Event) :
    parsed (before ++ after) = parsed before ++ parsed after := List.filterMap_append

theorem popped_append (before after : List Event) :
    popped (before ++ after) = popped before ++ popped after := List.filterMap_append

/-- Reports never come from nowhere; a step loses one exactly when it finds no room. -/
theorem step_delivered {s u : State} {a : Action} {trace seen : List Event}
    (h : machine.step s a = some (u, seen))
    (hle : (popped trace ++ s.engine.outbound.contents).length ≤ (parsed trace).length) :
    (popped (trace ++ seen) ++ u.engine.outbound.contents).length ≤
        (parsed (trace ++ seen)).length ∧
      (Delivered u (trace ++ seen) ↔ Delivered s trace ∧ RoomForReport s a) := by
  have hquiet : ∀ seen, u.engine = s.engine → popped seen = [] → parsed seen = [] →
      RoomForReport s a →
      (popped (trace ++ seen) ++ u.engine.outbound.contents).length ≤
          (parsed (trace ++ seen)).length ∧
        (Delivered u (trace ++ seen) ↔ Delivered s trace ∧ RoomForReport s a) := by
    intro seen hengine hpop hparse hroom
    unfold Delivered
    rw [popped_append, parsed_append, hengine, hpop, hparse, List.append_nil, List.append_nil]
    exact ⟨hle, ⟨fun hd => ⟨hd, hroom⟩, fun hd => hd.1⟩⟩
  cases step_effect h with
  | order req now gaps engine before frame read =>
    have hring : u.engine.outbound = s.engine.outbound := by
      rw [engine]
      rfl
    unfold Delivered
    rw [popped_append, parsed_append, hring]
    exact ⟨by simpa [popped, parsed] using hle, by simp [popped, parsed, RoomForReport]⟩
  | send r taken engine sent read => exact hquiet _ engine rfl rfl trivial
  | recv chunk engine before after read => exact hquiet _ engine rfl rfl trivial
  | leaveLoop now noFrame engine before after read =>
    refine hquiet _ engine rfl rfl ?_
    intro data rest ex hsplit
    rw [noFrame] at hsplit
    cases hsplit
  | skip now data rest split invalid engine before after read =>
    refine hquiet _ engine rfl rfl ?_
    intro data' rest' ex hsplit hex
    rw [split] at hsplit
    cases hsplit
    rw [invalid] at hex
    cases hex
  | report now data rest ex split valid engine before after read =>
    obtain ⟨hpushed, hcontents⟩ := s.engine.outbound.push_spec ex
    have hring : u.engine.outbound = (s.engine.outbound.push ex).1 := by
      rw [engine]
      rfl
    have hroom : RoomForReport s (.parse now) ↔
        s.engine.outbound.contents.length < SPSCRing.capacity kRingDepthLog - 1 := by
      constructor
      · exact fun hr => hr data rest ex split valid
      · exact fun hr _ _ _ _ _ => hr
    have hpop : popped (trace ++ [.parsed ex (s.engine.orders.lookup ex.clOrdId)]) =
        popped trace := by
      rw [popped_append]
      exact List.append_nil _
    have hparse : parsed (trace ++ [.parsed ex (s.engine.orders.lookup ex.clOrdId)]) =
        parsed trace ++ [ex] := parsed_append _ _
    unfold Delivered
    rw [hpop, hparse, hring, hcontents, hroom, hpushed]
    by_cases hfree : s.engine.outbound.contents.length < SPSCRing.capacity kRingDepthLog - 1
    · rw [if_pos (decide_eq_true hfree), ← List.append_assoc]
      constructor
      · simp only [List.length_append, List.length_singleton] at hle ⊢
        omega
      · rw [List.append_left_inj]
        exact ⟨fun hd => ⟨hd, hfree⟩, fun hd => hd.1⟩
    · rw [if_neg (by simpa using hfree)]
      refine ⟨hle.trans (by simp), ?_⟩
      constructor
      · intro hd
        have hlen := congrArg List.length hd
        simp only [List.length_append, List.length_singleton] at hle hlen
        omega
      · exact fun hd => absurd hd.2 hfree
  | popExec engine sent read =>
    obtain ⟨hcontents, -⟩ := s.engine.outbound.pop_spec
    have hring : u.engine.outbound = (s.engine.outbound.pop).1 := by rw [engine]
    have hpop : popped ((s.engine.outbound.pop).2.map Event.popped).toList =
        (s.engine.outbound.pop).2.toList := by
      cases (s.engine.outbound.pop).2 <;> rfl
    have hparse : parsed ((s.engine.outbound.pop).2.map Event.popped).toList = [] := by
      cases (s.engine.outbound.pop).2 <;> rfl
    unfold Delivered
    rw [popped_append, parsed_append, hpop, hparse, hring, List.append_assoc, ← hcontents,
      List.append_nil]
    exact ⟨hle, ⟨fun hd => ⟨hd, trivial⟩, fun hd => hd.1⟩⟩

end CppCodes.System.Delivery
