import Mathlib.Data.List.Basic
import Mathlib.Data.List.Induction
import Mathlib.Data.List.TakeWhile
import Mathlib.Tactic.Common

/-!
# Logs of an allocator's client

A log lists the blocks a client has obtained, written to and freed. An address may be
obtained again once it has been freed, so a block is an entry of the log, not an address.
In a disciplined log every event concerns a block that the client has at that time.
-/

set_option autoImplicit false

namespace CppCodes.Library.AllocTrace

variable {A : Type} [DecidableEq A]

inductive Event (A : Type) where
  | obtained (p : A) (size : Nat)
  | written (p : A) (off len : Nat)
  | freed (p : A)
  deriving DecidableEq

def track (blocks : List (A × Nat)) : Event A → List (A × Nat)
  | .obtained p size => (p, size) :: blocks
  | .written _ _ _ => blocks
  | .freed p => blocks.filter fun b => b.1 ≠ p

/-- The blocks that the client has after the log, with their sizes. -/
def blocks (log : List (Event A)) : List (A × Nat) := log.foldl track []

def owned (log : List (Event A)) : List A := (blocks log).map Prod.fst

/-- What may follow the log. -/
def Allowed (log : List (Event A)) : Event A → Prop
  | .obtained p _ => p ∉ owned log
  | .written p off len => ∃ size, (p, size) ∈ blocks log ∧ off + len ≤ size
  | .freed p => p ∈ owned log

def Disciplined (log : List (Event A)) : Prop :=
  ∀ before e after, log = before ++ e :: after → Allowed before e

variable {log more : List (Event A)} {e : Event A} {p : A}

@[simp] theorem blocks_nil : blocks ([] : List (Event A)) = [] := rfl

@[simp] theorem blocks_snoc : blocks (log ++ [e]) = track (blocks log) e := by
  simp [blocks]

@[simp] theorem owned_nil : owned ([] : List (Event A)) = [] := rfl

@[simp] theorem owned_obtained {size : Nat} :
    owned (log ++ [.obtained p size]) = p :: owned log := by
  simp [owned, track]

@[simp] theorem owned_written {off len : Nat} :
    owned (log ++ [.written p off len]) = owned log := by
  simp [owned, track]

@[simp] theorem owned_freed : owned (log ++ [.freed p]) = (owned log).filter (· ≠ p) := by
  simp [owned, track, List.filter_map, Function.comp_def]

theorem disciplined_nil : Disciplined ([] : List (Event A)) := by
  intro before e after h
  simp at h

theorem disciplined_snoc_iff : Disciplined (log ++ [e]) ↔ Disciplined log ∧ Allowed log e := by
  constructor
  · intro h
    refine ⟨?_, h log e [] rfl⟩
    rintro before e' after rfl
    exact h before e' (after ++ [e]) (by simp)
  · rintro ⟨hlog, hlast⟩ before e' after hsplit
    rcases List.eq_nil_or_concat after with rfl | ⟨after, last, rfl⟩
    · obtain ⟨rfl, hsame⟩ := List.append_inj' hsplit rfl
      cases hsame
      exact hlast
    · have hassoc : before ++ e' :: (after ++ [last]) = (before ++ e' :: after) ++ [last] := by simp
      rw [List.concat_eq_append, hassoc] at hsplit
      exact hlog before e' after (List.append_inj' hsplit rfl).1

/-- No address is that of two blocks at a time. -/
theorem owned_nodup (h : Disciplined log) : (owned log).Nodup := by
  induction log using List.reverseRecOn with
  | nil => simp
  | append_singleton log e ih =>
    obtain ⟨hlog, hlast⟩ := disciplined_snoc_iff.mp h
    cases e with
    | obtained p size =>
      rw [owned_obtained]
      exact List.nodup_cons.mpr ⟨hlast, ih hlog⟩
    | written p off len =>
      rw [owned_written]
      exact ih hlog
    | freed p =>
      rw [owned_freed]
      exact (ih hlog).filter _

/-- Of the blocks that there are, one is freed and the rest are left. -/
theorem perm_owned_freed (h : Disciplined log) {rest : List A}
    (hheld : (p :: rest).Perm (owned log)) : rest.Perm (owned (log ++ [.freed p])) := by
  have hnodup := hheld.nodup_iff.mpr (owned_nodup h)
  have hkept : rest.filter (· ≠ p) = rest := by
    rw [List.filter_eq_self]
    intro q hq
    have hne : q ≠ p := by
      rintro rfl
      exact (List.nodup_cons.mp hnodup).1 hq
    simp [hne]
  have hfiltered := hheld.filter fun q => decide (q ≠ p)
  rw [List.filter_cons_of_neg (by simp), hkept] at hfiltered
  rwa [owned_freed]

/-- A block is there until it is freed. -/
theorem owned_until_freed (hp : p ∈ owned log) (hmore : Event.freed p ∉ more) :
    p ∈ owned (log ++ more) := by
  induction more using List.reverseRecOn with
  | nil => simpa using hp
  | append_singleton more e ih =>
    simp only [List.mem_append, List.mem_singleton, not_or] at hmore
    have hbefore := ih hmore.1
    rw [← List.append_assoc]
    cases e with
    | obtained q size =>
      rw [owned_obtained]
      exact List.mem_cons_of_mem q hbefore
    | written q off len =>
      rw [owned_written]
      exact hbefore
    | freed q =>
      have hne : p ≠ q := fun hsame => hmore.2 (by rw [hsame])
      rw [owned_freed]
      simp [hbefore, hne]

/-- No block is there until it is obtained. -/
theorem not_owned_until_obtained (hp : p ∉ owned log) (hmore : ∀ size, Event.obtained p size ∉ more) :
    p ∉ owned (log ++ more) := by
  induction more using List.reverseRecOn with
  | nil => simpa using hp
  | append_singleton more e ih =>
    have hbefore := ih fun size hin => hmore size (List.mem_append_left _ hin)
    rw [← List.append_assoc]
    cases e with
    | obtained q size =>
      have hne : p ≠ q := by
        rintro rfl
        exact hmore size (by simp)
      rw [owned_obtained]
      simp [hbefore, hne]
    | written q off len =>
      rw [owned_written]
      exact hbefore
    | freed q =>
      rw [owned_freed]
      simp [hbefore]

/-- The event obtains a block at `p`. -/
def obtains (p : A) : Event A → Bool
  | .obtained q _ => p = q
  | _ => false

/-- Behind the entry that obtains a block comes one that frees it, with none in between
that obtains the address again; and from there until the address is obtained again it is
neither freed nor written to. -/
def FreedOnce (log : List (Event A)) : Prop :=
  ∀ before p size after, log = before ++ .obtained p size :: after →
    ∃ used rest, after = used ++ .freed p :: rest ∧ .freed p ∉ used ∧
      (∀ n, .obtained p n ∉ used) ∧
      ∀ e ∈ rest.takeWhile (fun e => !obtains p e),
        e ≠ .freed p ∧ ∀ off len, e ≠ .written p off len

theorem not_obtained_of_takeWhile (p : A) (size : Nat) (rest : List (Event A)) :
    .obtained p size ∉ rest.takeWhile fun e => !obtains p e := by
  intro hin
  have hnot := List.mem_takeWhile_imp hin
  simp [obtains] at hnot

/-- A disciplined client that has nothing left has freed every block once, and has not
touched it afterwards. -/
theorem freedOnce_of_disciplined (h : Disciplined log) (hnone : owned log = []) : FreedOnce log := by
  rintro before p size after rfl
  have hobtained : p ∈ owned (before ++ [.obtained p size]) := by simp
  have hfreed : Event.freed p ∈ after := by
    by_contra hno
    have hin := owned_until_freed hobtained hno
    rw [List.append_assoc, List.singleton_append, hnone] at hin
    cases hin
  obtain ⟨used, rest, rfl, hfirst⟩ := List.eq_append_cons_of_mem hfreed
  refine ⟨used, rest, rfl, hfirst, ?_, ?_⟩
  · intro n hagain
    obtain ⟨u, v, rfl⟩ := List.append_of_mem hagain
    have hnot : Event.freed p ∉ u := fun hu => hfirst (by simp [hu])
    have hin := owned_until_freed hobtained hnot
    have hallowed := h (before ++ [.obtained p size] ++ u) (.obtained p n) (v ++ .freed p :: rest)
      (by simp)
    exact hallowed hin
  · intro e he
    obtain ⟨u, v, hsplit⟩ := List.append_of_mem he
    have hprefix : rest.takeWhile (fun e => !obtains p e) <+: rest := List.takeWhile_prefix _
    obtain ⟨w, hw⟩ := hprefix
    have hgone : p ∉ owned (before ++ .obtained p size :: used ++ [.freed p]) := by
      rw [owned_freed]
      simp
    have hstill : p ∉ owned (before ++ .obtained p size :: used ++ [.freed p] ++ u) := by
      apply not_owned_until_obtained hgone
      intro n hin
      apply not_obtained_of_takeWhile p n rest
      rw [hsplit]
      exact List.mem_append_left _ hin
    have hallowed := h (before ++ .obtained p size :: used ++ [.freed p] ++ u) e (v ++ w) (by
      rw [← hw, hsplit]
      simp)
    constructor
    · rintro rfl
      exact hstill hallowed
    · rintro off len rfl
      obtain ⟨n, hin, -⟩ := hallowed
      exact hstill (List.mem_map_of_mem hin)

/-! ## Several clients

Their logs in one order, with the client of every event. An allocator that tells the blocks
of all clients apart keeps each of them away from the blocks of the others. -/

section Clients

variable {T : Type} [DecidableEq T] {run : List (T × Event A)} {t u : T}

/-- What one client has done. -/
def own (t : T) (run : List (T × Event A)) : List (Event A) :=
  (run.filter fun entry => entry.1 = t).map Prod.snd

def together (run : List (T × Event A)) : List (Event A) := run.map Prod.snd

/-- Nobody obtains an address that somebody has. -/
def Distinct (run : List (T × Event A)) : Prop :=
  ∀ before t p size after, run = before ++ (t, .obtained p size) :: after →
    p ∉ owned (together before)

omit [DecidableEq A] in
@[simp] theorem own_nil : own t ([] : List (T × Event A)) = [] := rfl

omit [DecidableEq A] in
@[simp] theorem own_snoc_self : own t (run ++ [(t, e)]) = own t run ++ [e] := by
  simp [own, List.filter_append]

omit [DecidableEq A] in
theorem own_snoc_other (h : u ≠ t) : own u (run ++ [(t, e)]) = own u run := by
  simp [own, List.filter_append, h.symm]

omit [DecidableEq A] in
theorem own_of_nobody (h : ∀ entry ∈ run, entry.1 ≠ t) : own t run = [] := by
  rw [own, List.map_eq_nil_iff, List.filter_eq_nil_iff]
  intro entry hin
  simpa using h entry hin

omit [DecidableEq A] [DecidableEq T] in
@[simp] theorem together_snoc : together (run ++ [(t, e)]) = together run ++ [e] := by
  simp [together]

omit [DecidableEq T] in
theorem Distinct.of_snoc (h : Distinct (run ++ [(t, e)])) : Distinct run := by
  rintro before u p size after rfl
  exact h before u p size (after ++ [(t, e)]) (by simp)

/-- Every block is that of one client. -/
structure Shared (run : List (T × Event A)) : Prop where
  mem_iff : ∀ b, b ∈ blocks (together run) ↔ ∃ t, b ∈ blocks (own t run)
  apart : ∀ t u p, p ∈ owned (own t run) → p ∈ owned (own u run) → t = u

theorem Shared.nil : Shared ([] : List (T × Event A)) := by
  constructor
  · simp [together]
  · simp

theorem Shared.owned_iff (shared : Shared run) (p : A) :
    p ∈ owned (together run) ↔ ∃ t, p ∈ owned (own t run) := by
  simp only [owned, List.mem_map, shared.mem_iff]
  constructor
  · rintro ⟨b, ⟨t, hb⟩, hp⟩
    exact ⟨t, b, hb, hp⟩
  · rintro ⟨t, b, hb, hp⟩
    exact ⟨b, ⟨t, hb⟩, hp⟩

theorem Shared.obtained (shared : Shared run) {size : Nat} (hnew : p ∉ owned (together run)) :
    Shared (run ++ [(t, .obtained p size)]) := by
  have hnobody : ∀ u, p ∉ owned (own u run) := fun u hu => hnew ((shared.owned_iff p).mpr ⟨u, hu⟩)
  constructor
  · intro b
    rw [together_snoc, blocks_snoc, track, List.mem_cons, shared.mem_iff]
    constructor
    · rintro (rfl | ⟨u, hu⟩)
      · exact ⟨t, by simp [track]⟩
      · by_cases hut : u = t
        · subst hut
          exact ⟨u, by simp [track, hu]⟩
        · exact ⟨u, by rwa [own_snoc_other hut]⟩
    · rintro ⟨u, hu⟩
      by_cases hut : u = t
      · subst hut
        rw [own_snoc_self, blocks_snoc, track, List.mem_cons] at hu
        exact hu.imp_right fun hin => ⟨u, hin⟩
      · rw [own_snoc_other hut] at hu
        exact Or.inr ⟨u, hu⟩
  · intro u v q hu hv
    by_cases hut : u = t <;> by_cases hvt : v = t
    · rw [hut, hvt]
    · subst hut
      rw [own_snoc_self, owned_obtained, List.mem_cons] at hu
      rw [own_snoc_other hvt] at hv
      rcases hu with rfl | hu
      · exact absurd hv (hnobody v)
      · exact shared.apart u v q hu hv
    · subst hvt
      rw [own_snoc_self, owned_obtained, List.mem_cons] at hv
      rw [own_snoc_other hut] at hu
      rcases hv with rfl | hv
      · exact absurd hu (hnobody u)
      · exact shared.apart u v q hu hv
    · rw [own_snoc_other hut] at hu
      rw [own_snoc_other hvt] at hv
      exact shared.apart u v q hu hv

theorem Shared.written (shared : Shared run) {off len : Nat} :
    Shared (run ++ [(t, .written p off len)]) := by
  have hsame : ∀ u, blocks (own u (run ++ [(t, .written p off len)])) = blocks (own u run) := by
    intro u
    by_cases hut : u = t
    · subst hut
      simp [track]
    · rw [own_snoc_other hut]
  constructor
  · intro b
    simp only [hsame, together_snoc, blocks_snoc, track]
    exact shared.mem_iff b
  · intro u v q
    simp only [owned, hsame]
    exact shared.apart u v q

theorem Shared.freed (shared : Shared run) (hp : p ∈ owned (own t run)) :
    Shared (run ++ [(t, .freed p)]) := by
  have hother : ∀ u, u ≠ t → p ∉ owned (own u run) :=
    fun u hut hu => hut (shared.apart u t p hu hp)
  have hsame : ∀ u, blocks (own u (run ++ [(t, .freed p)])) =
      (blocks (own u run)).filter fun b => b.1 ≠ p := by
    intro u
    by_cases hut : u = t
    · subst hut
      rw [own_snoc_self, blocks_snoc, track]
    · rw [own_snoc_other hut, eq_comm, List.filter_eq_self]
      intro b hb
      rw [decide_eq_true_iff]
      rintro rfl
      exact hother u hut (List.mem_map_of_mem hb)
  constructor
  · intro b
    simp only [hsame, together_snoc, blocks_snoc, track, List.mem_filter, shared.mem_iff]
    exact exists_and_right.symm
  · intro u v q
    simp only [owned, hsame, List.mem_map, List.mem_filter]
    rintro ⟨b, ⟨hb, -⟩, rfl⟩ ⟨c, ⟨hc, -⟩, hcb⟩
    exact shared.apart u v b.1 (List.mem_map_of_mem hb) (hcb ▸ List.mem_map_of_mem hc)

/-- Clients that are disciplined each are so together. -/
theorem shared_of_disciplined (hown : ∀ t, Disciplined (own t run)) (hdistinct : Distinct run) :
    Shared run ∧ Disciplined (together run) := by
  induction run using List.reverseRecOn with
  | nil => exact ⟨Shared.nil, disciplined_nil⟩
  | append_singleton run entry ih =>
    obtain ⟨t, e⟩ := entry
    have hbefore : ∀ u, Disciplined (own u run) := by
      intro u
      by_cases hut : u = t
      · subst hut
        have hsnoc := hown u
        rw [own_snoc_self] at hsnoc
        exact (disciplined_snoc_iff.mp hsnoc).1
      · have hsnoc := hown u
        rwa [own_snoc_other hut] at hsnoc
    have hlast : Allowed (own t run) e := by
      have hsnoc := hown t
      rw [own_snoc_self] at hsnoc
      exact (disciplined_snoc_iff.mp hsnoc).2
    obtain ⟨shared, hall⟩ := ih hbefore hdistinct.of_snoc
    rw [together_snoc, disciplined_snoc_iff]
    cases e with
    | obtained p size =>
      have hnew : p ∉ owned (together run) := hdistinct run t p size [] rfl
      exact ⟨shared.obtained hnew, hall, hnew⟩
    | written p off len =>
      obtain ⟨size, hin, hle⟩ := hlast
      exact ⟨shared.written, hall, size, (shared.mem_iff _).mpr ⟨t, hin⟩, hle⟩
    | freed p => exact ⟨shared.freed hlast, hall, (shared.owned_iff p).mpr ⟨t, hlast⟩⟩

/-- When every client has freed all that it had, nothing is left. -/
theorem Shared.owned_nil (shared : Shared run) (hnone : ∀ t, owned (own t run) = []) :
    owned (together run) = [] := by
  rw [List.eq_nil_iff_forall_not_mem]
  intro p hp
  obtain ⟨t, ht⟩ := (shared.owned_iff p).mp hp
  rw [hnone t] at ht
  cases ht

end Clients

end CppCodes.Library.AllocTrace
