import Mathlib.Data.List.Basic
import Mathlib.Tactic.Common

/-!
# Properties of histories

A history is the list of what happened, oldest first. `Always` says something of every
moment of it and `Each` something of every event, in view of what came before. Both
grow from the right end, as runs do.
-/

set_option autoImplicit false

namespace CppCodes.Library

variable {ε : Type*}

/-- `Q` holds of the history at every moment. -/
def Always (Q : List ε → Prop) (history : List ε) : Prop := ∀ now, now <+: history → Q now

/-- `P` holds of every event and what came before it. -/
def Each (P : List ε → ε → Prop) (history : List ε) : Prop :=
  ∀ before e after, history = before ++ e :: after → P before e

variable {Q : List ε → Prop} {P : List ε → ε → Prop} {history seen : List ε} {e : ε}

theorem always_nil_iff : Always Q [] ↔ Q [] := by
  constructor
  · intro h
    exact h [] List.prefix_rfl
  · intro h now hnow
    rw [List.prefix_nil.mp hnow]
    exact h

theorem always_snoc_iff : Always Q (history ++ [e]) ↔ Always Q history ∧ Q (history ++ [e]) := by
  constructor
  · intro h
    exact ⟨fun now hnow => h now (hnow.trans (List.prefix_append ..)), h _ List.prefix_rfl⟩
  · intro hboth now hnow
    obtain ⟨h, hlast⟩ := hboth
    rcases List.prefix_concat_iff.mp hnow with rfl | hnow
    · exact hlast
    · exact h now hnow

theorem each_nil : Each P [] := by
  intro before e after h
  cases before <;> cases h

theorem each_snoc_iff : Each P (history ++ [e]) ↔ Each P history ∧ P history e := by
  constructor
  · intro h
    refine ⟨?_, h history e [] rfl⟩
    intro before e' after hhistory
    exact h before e' (after ++ [e]) (by rw [hhistory, List.append_assoc, List.cons_append])
  · intro hboth before e' after hsplit
    obtain ⟨h, hlast⟩ := hboth
    rcases List.eq_nil_or_concat after with rfl | ⟨init, last, rfl⟩
    · obtain ⟨rfl, he⟩ := List.append_inj' hsplit rfl
      cases he
      exact hlast
    · rw [List.concat_eq_append, ← List.cons_append, ← List.append_assoc] at hsplit
      exact h before e' init (List.append_inj' hsplit rfl).1

/-! ## Writes to a key -/

variable {K V : Type*}

/-- The last of the writes to `k` has written `v`. -/
def LastWrite (writes : List (K × V)) (k : K) (v : V) : Prop :=
  ∃ before after, writes = before ++ (k, v) :: after ∧ ∀ e ∈ after, e.1 ≠ k

theorem not_lastWrite_nil {k : K} {v : V} : ¬ LastWrite ([] : List (K × V)) k v := by
  rintro ⟨before, after, hwrites, -⟩
  cases before <;> cases hwrites

theorem lastWrite_snoc {writes : List (K × V)} {k k' : K} {v v' : V} :
    LastWrite (writes ++ [(k', v')]) k v ↔
      k = k' ∧ v = v' ∨ k ≠ k' ∧ LastWrite writes k v := by
  constructor
  · rintro ⟨before, after, hwrites, hlater⟩
    rcases List.eq_nil_or_concat after with rfl | ⟨init, last, rfl⟩
    · obtain ⟨-, hlast⟩ := List.append_inj' hwrites rfl
      cases hlast
      exact Or.inl ⟨rfl, rfl⟩
    · rw [List.concat_eq_append, ← List.cons_append, ← List.append_assoc] at hwrites
      obtain ⟨hinit, hlast⟩ := List.append_inj' hwrites rfl
      cases hlast
      have hne : k' ≠ k := hlater (k', v') (by simp)
      exact Or.inr ⟨hne.symm, before, init, hinit, fun e he => hlater e (by simp [he])⟩
  · rintro (⟨rfl, rfl⟩ | ⟨hne, before, after, rfl, hlater⟩)
    · exact ⟨writes, [], rfl, by simp⟩
    · refine ⟨before, after ++ [(k', v')], by simp, ?_⟩
      intro e he
      rcases List.mem_append.mp he with hold | hnew
      · exact hlater e hold
      · rw [List.mem_singleton.mp hnew]
        exact hne.symm

end CppCodes.Library
