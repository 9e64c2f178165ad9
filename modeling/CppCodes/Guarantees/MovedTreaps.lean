import CppCodes.Guarantees.TreapOwnership
import CppCodes.Guarantees.TreapRefinement

/-!
# Several treaps are several finite maps

A program over maps that are moved about gets the answers that finite maps give, where a move
hands over the whole map and leaves the empty one. A call that throws is as if it had not been
made, unless it was assigning a value.
-/

set_option autoImplicit false

namespace CppCodes.Guarantees.MovedTreaps

open CppCodes.Library CppCodes.Library.Code
open CppCodes.Library.KeyedList (represents_empty)
open CppCodes.Source.Treap CppCodes.Source.Treap.Linked
open CppCodes.Guarantees.TreapExceptions CppCodes.Guarantees.TreapBlocks
open CppCodes.Guarantees.TreapOwnership CppCodes.Guarantees.TreapRefinement

variable {K V : Type}

/-! ## Which call threw -/

/-- The exception is that of a call that `C` says throws. -/
def Blamed (C : Client K V) (_ t : Memory K V) : Prop :=
  ∃ c n, t.failed = some c ∧ C.throwsAt c n = true

section Blame

variable (C : Client K V)

/-- Whoever threw is to blame in the whole, too. -/
theorem blame_then {α β : Type} {c : Code (Memory K V) α} {f : α → Code (Memory K V) β}
    (hc : Atomic (Blamed C) c) (hf : ∀ a, Atomic (Blamed C) (f a)) :
    Atomic (Blamed C) (c >>= f) := by
  intro m t h
  rcases bind_threw h with hthrew | ⟨a, u, -, hthrew⟩
  · exact hc m t hthrew
  · exact hf a u t hthrew

theorem blame_mayThrow (c : Call) : Atomic (Blamed C) (mayThrow C c) := by
  intro m t h
  unfold mayThrow at h
  split at h
  · rename_i hthrows
    cases h
    exact ⟨c, m.calls, rfl, hthrows⟩
  · cases h

theorem blame_compare (a b : K) : Atomic (Blamed C) (compare C a b) :=
  blame_then C (blame_mayThrow C .compare) fun _ => (noThrow_pure _).atomic

theorem blame_newNode (key : K) (value : V) : Atomic (Blamed C) (newNode C key value) :=
  blame_then C (blame_mayThrow C .allocate) fun _ => blame_then C (noThrow_read _).atomic fun _ =>
    blame_then C (noThrow_modify _).atomic fun _ => blame_then C (blame_mayThrow C .constructKey)
      fun _ => blame_then C (blame_mayThrow C .constructValue) fun _ =>
        NoThrow.atomic (NoThrow.bind (noThrow_read _) fun a =>
          NoThrow.bind (noThrow_modify _) fun _ => noThrow_pure a)

theorem blame_assignValue (p : Nat) (value : V) : Atomic (Blamed C) (assignValue C p value) := by
  intro m t h
  rcases bind_threw h with hthrew | ⟨c, m1, -, h1⟩
  · exact absurd hthrew (noThrow_cell p m t)
  rcases bind_threw h1 with hthrew | ⟨throws, m2, hread, h2⟩
  · exact absurd hthrew (noThrow_read _ _ t)
  obtain ⟨hthrows, rfl⟩ := read_done hread
  rcases bind_threw h2 with hthrew | ⟨_, m3, -, h3⟩
  · exact absurd hthrew (noThrow_modify _ _ t)
  split at h3
  · rename_i hyes
    rcases bind_threw h3 with hthrew | ⟨_, m4, -, h4⟩
    · exact absurd hthrew (noThrow_setCell p _ _ t)
    · cases h4
      exact ⟨.assignValue, _, rfl, hthrows.symm.trans hyes⟩
  · exact absurd h3 (noThrow_setCell p _ _ t)

theorem blame_insertImpl (assignOnMatch : Bool) (key : K) (value : V) (depth : Nat)
    (p : Option Nat) : Atomic (Blamed C) (insertImpl C assignOnMatch key value depth p) := by
  induction depth generalizing p with
  | zero => exact noThrow_fail.atomic
  | succ depth ih =>
    cases p with
    | none =>
      exact blame_then C (noThrow_modify _).atomic fun _ =>
        blame_then C (blame_newNode C key value) fun a => (noThrow_pure (some a)).atomic
    | some node =>
      refine blame_then C (noThrow_cell node).atomic fun c =>
        blame_then C (blame_compare C key c.key) fun less => Atomic.ite ?_
          (blame_then C (noThrow_cell node).atomic fun c =>
            blame_then C (blame_compare C c.key key) fun greater => Atomic.ite ?_ ?_)
      · exact Atomic.before_noThrow (ih c.left) fun l =>
          NoThrow.bind (noThrow_setLeft node l) fun _ => NoThrow.bind (noThrow_outranks l node)
            fun _ => NoThrow.ite
              (NoThrow.bind (noThrow_rotateRight node) fun a => noThrow_pure (some a))
              (noThrow_pure (some node))
      · exact Atomic.before_noThrow (ih c.right) fun r =>
          NoThrow.bind (noThrow_setRight node r) fun _ => NoThrow.bind (noThrow_outranks r node)
            fun _ => NoThrow.ite
              (NoThrow.bind (noThrow_rotateLeft node) fun a => noThrow_pure (some a))
              (noThrow_pure (some node))
      · cases assignOnMatch with
        | false => exact (NoThrow.bind (noThrow_modify _) fun _ => noThrow_pure (some node)).atomic
        | true => exact Atomic.before_noThrow (blame_assignValue C node value) fun _ =>
            NoThrow.bind (noThrow_modify _) fun _ => noThrow_pure (some node)

theorem blame_insertWith (assignOnMatch : Bool) (key : K) (value : V) :
    Atomic (Blamed C) (insertWith C assignOnMatch key value) :=
  blame_then C (noThrow_modify _).atomic fun _ => blame_then C (noThrow_read _).atomic fun root =>
    blame_then C (noThrow_read _).atomic fun depth =>
      Atomic.before_noThrow (blame_insertImpl C assignOnMatch key value depth root) fun _ =>
        NoThrow.bind (noThrow_modify _) fun _ => NoThrow.bind (noThrow_read _) fun inserted =>
          NoThrow.ite (NoThrow.bind (noThrow_modify _) fun _ => noThrow_pure inserted)
            (noThrow_pure inserted)

/-- Where no assignment of a value throws, no operation that throws leaves a trace. -/
theorem same_of_threw (hassign : ∀ n, C.throwsAt .assignValue n = false) {m t : Memory K V}
    {op : Op K V} (h : perform C op m = .threw t) : Same m t := by
  have hkept := atomic_perform C op m t h
  cases op with
  | insertOrAssign key value =>
    apply hkept.rest
    right
    intro hfailed
    have hblamed : Blamed C m t := Atomic.before_noThrow (blame_insertWith C true key value)
      (fun _ => noThrow_pure _) m t h
    obtain ⟨c, n, hc, hthrows⟩ := hblamed
    rw [hfailed] at hc
    cases hc
    rw [hassign n] at hthrows
    cases hthrows
  | insert key value => exact hkept.rest (.inl rfl)
  | erase key => exact hkept.rest (.inl rfl)
  | find key => exact hkept.rest (.inl rfl)
  | contains key => exact hkept.rest (.inl rfl)
  | size => exact hkept.rest (.inl rfl)
  | empty => exact hkept.rest (.inl rfl)
  | clear => exact hkept.rest (.inl rfl)

end Blame

/-! ## The finite maps -/

section Maps

variable (comp : K → K → Bool) [IsStrictWeakOrder K fun a b => comp a b = true]

/-- The maps in their lifetime. -/
abbrev Maps (V : Type) : Type := Nat → Option (Reference comp V)

variable {comp}

/-- The map `m` goes to the object `i`. -/
def Maps.take (maps : Maps comp V) (i other : Nat) (m : Reference comp V) : Maps comp V :=
  Function.update (Function.update maps other (some ∅)) i (some m)

def Maps.step (maps : Maps comp V) : Linked.Action K V → Option (Maps comp V × List (Event V))
  | .construct i =>
      match maps i with
      | some _ => none
      | none => some (Function.update maps i (some ∅), [])
  | .moveConstruct i other =>
      match maps i, maps other with
      | none, some m => some (maps.take i other m, [])
      | _, _ => none
  | .moveAssign i other =>
      match maps i, maps other with
      | some _, some m => if i = other then some (maps, []) else some (maps.take i other m, [])
      | _, _ => none
  | .perform i op =>
      match maps i with
      | none => none
      | some m => some (Function.update maps i (some (m.apply op).1), [.result (m.apply op).2])
  | .destruct i =>
      match maps i with
      | none => none
      | some _ => some (Function.update maps i none, [])

variable (comp) in
def Maps.machine : Machine (Maps comp V) (Linked.Action K V) (Event V) where
  step := Maps.step

/-! ## The maps in memory are these -/

/-- Each object stands for its finite map. -/
structure Agrees (w : World K V) (maps : Maps comp V) : Prop where
  live : ∀ i o, w.objects i = some o →
    ∃ m t, maps i = some m ∧ Represents (w.memory o) t ∧ Refines comp t m
  dead : ∀ i, w.objects i = none → maps i = none

variable {w w' : World K V} {maps : Maps comp V} {owns : Nat → List Nat} {i j : Nat}
  {o : Object} {m : Reference comp V}

theorem agrees_start : Agrees ({} : World K V) (fun _ => none : Maps comp V) where
  live _ _ h := by cases h
  dead _ _ := rfl

/-- A member of the object `i` has been called, and `i` stands for `after`. -/
theorem Agrees.call (h : Agrees w maps) (howned : Owned w owns) {heap : BlockHeap (Cell K V)}
    {now : List Nat} (settled : Settled w.heap (owns i) heap now) (calls generators : Nat)
    (object : Option Object) (after : Option (Reference comp V))
    (live : ∀ o, object = some o → ∃ m t, after = some m ∧
      Represents { heap, root := o.root, size := o.size, drawn := o.drawn, calls } t ∧
      Refines comp t m) (dead : object = none → after = none) :
    Agrees { heap, generators, calls, objects := Function.update w.objects i object }
      (Function.update maps i after) := by
  constructor
  · intro j o hj
    dsimp only at hj
    by_cases hji : j = i
    · subst hji
      rw [Function.update_self] at hj ⊢
      exact live o hj
    · rw [Function.update_of_ne hji] at hj ⊢
      obtain ⟨m, t, hm, hrep, hrefines⟩ := h.live j o hj
      obtain ⟨addrs, hold, nodup⟩ := hrep.tree
      obtain ⟨t', hold', -⟩ := howned.live j o hj
      obtain ⟨rfl, rfl⟩ := holds_unique hold hold'
      have hframed := howned.frame settled hji hold
      exact ⟨m, t, hm, ⟨⟨_, hframed, nodup⟩, hrep.size, hrep.count, hrep.drawn⟩, hrefines⟩
  · intro j hj
    dsimp only at hj
    by_cases hji : j = i
    · subst hji
      rw [Function.update_self] at hj ⊢
      exact dead hj
    · rw [Function.update_of_ne hji] at hj ⊢
      exact h.dead j hj

/-- The map of `j` goes to `i`. -/
theorem Agrees.take (h : Agrees w maps) (hj : w.objects j = some o) (hm : maps j = some m) :
    Agrees (w.take i j o) (maps.take i j m) := by
  obtain ⟨m', t, hm', hrep, hrefines⟩ := h.live j o hj
  rw [hm] at hm'
  cases hm'
  unfold World.take Maps.take
  constructor
  · intro k o' hk
    dsimp only at hk
    by_cases hki : k = i
    · subst hki
      rw [Function.update_self] at hk ⊢
      cases hk
      exact ⟨m, { t with drawn := 0 }, rfl, ⟨hrep.tree, hrep.size, hrep.count, rfl⟩,
        ⟨hrefines.entries, hrefines.size⟩⟩
    · rw [Function.update_of_ne hki] at hk ⊢
      by_cases hkj : k = j
      · subst hkj
        rw [Function.update_self] at hk ⊢
        cases hk
        exact ⟨∅, { drawn := o.drawn }, rfl, ⟨⟨[], Holds.nil, List.nodup_nil⟩, rfl, rfl, rfl⟩,
          ⟨represents_empty, rfl⟩⟩
      · rw [Function.update_of_ne hkj] at hk ⊢
        exact h.live k o' hk
  · intro k hk
    dsimp only at hk
    by_cases hki : k = i
    · subst hki
      rw [Function.update_self] at hk
      cases hk
    · rw [Function.update_of_ne hki] at hk ⊢
      by_cases hkj : k = j
      · subst hkj
        rw [Function.update_self] at hk
        cases hk
      · rw [Function.update_of_ne hkj] at hk ⊢
        exact h.dead k hk

/-- What a program sees of a call that returned. -/
def answered : Event V → Bool
  | .threw => false
  | _ => true

variable {I : Instance K V}

theorem step_agrees [IsStrictWeakOrder K fun a b => I.comp a b = true] {maps : Maps I.comp V}
    (hassign : ∀ n, I.throwsAt .assignValue n = false) (howned : Owned w owns)
    (h : Agrees w maps) {action : Linked.Action K V} {seen : List (Event V)}
    (hstep : w.step I action = some (w', seen)) :
    (seen.all answered = true ∧ ∃ maps', maps.step action = some (maps', seen) ∧ Agrees w' maps') ∨
      (seen.all answered = false ∧ seen.filter answered = [] ∧ Agrees w' maps) := by
  have hempty : ∀ (heap : BlockHeap (Cell K V)) (calls drawn : Nat), ∃ m t,
      (some ∅ : Option (Reference I.comp V)) = some m ∧
        Represents { heap, drawn, calls } t ∧ Refines I.comp t m := fun heap calls drawn =>
    ⟨∅, { drawn }, rfl, ⟨⟨[], Holds.nil, List.nodup_nil⟩, rfl, rfl, rfl⟩, represents_empty, rfl⟩
  cases action with
  | construct i =>
    unfold World.step at hstep
    dsimp only at hstep
    cases hi : w.objects i with
    | some o =>
      rw [hi] at hstep
      cases hstep
    | none =>
      rw [hi] at hstep
      cases hstep
      refine .inl ⟨rfl, Function.update maps i (some ∅), ?_, ?_⟩
      · unfold Maps.step
        dsimp only
        rw [h.dead i hi]
      · apply h.call howned (settled_refl w.heap (owns i))
        · intro o ho
          cases ho
          exact hempty w.heap w.calls 0
        · intro ho
          cases ho
  | moveConstruct i j =>
    unfold World.step at hstep
    dsimp only at hstep
    split at hstep
    · rename_i o hi hj
      cases hstep
      obtain ⟨m, t, hm, -⟩ := h.live j o hj
      refine .inl ⟨rfl, maps.take i j m, ?_, h.take hj hm⟩
      unfold Maps.step
      dsimp only
      rw [h.dead i hi, hm]
    · cases hstep
  | moveAssign i j =>
    unfold World.step at hstep
    dsimp only at hstep
    split at hstep
    · rename_i o o' hi hj
      obtain ⟨m, t, hm, -⟩ := h.live i o hi
      obtain ⟨m', t', hm', -⟩ := h.live j o' hj
      split at hstep
      · rename_i hself
        cases hstep
        refine .inl ⟨rfl, maps, ?_, h⟩
        unfold Maps.step
        dsimp only
        rw [hm, hm']
        exact if_pos hself
      · rename_i hne
        obtain ⟨u, hdone, hroot, hsize, hsettled⟩ := howned.clear hi
        rw [hdone] at hstep
        cases hstep
        have hcleared : Agrees (w.afterCall i o u) (Function.update maps i (some ∅)) := by
          apply h.call howned hsettled
          · intro o'' ho
            cases ho
            rw [hroot, hsize]
            exact hempty u.heap u.calls u.drawn
          · intro ho
            cases ho
        have hj' : (w.afterCall i o u).objects j = some o' :=
          (Function.update_of_ne (Ne.symm hne) _ _).trans hj
        have htaken := hcleared.take (i := i) hj' ((Function.update_of_ne (Ne.symm hne) _ _).trans hm')
        have hsame : Maps.take (Function.update maps i (some ∅)) i j m' = maps.take i j m' := by
          unfold Maps.take
          rw [Function.update_comm hne, Function.update_idem]
        rw [hsame] at htaken
        refine .inl ⟨rfl, maps.take i j m', ?_, htaken⟩
        unfold Maps.step
        dsimp only
        rw [hm, hm']
        exact if_neg hne
    · cases hstep
  | perform i op =>
    unfold World.step at hstep
    dsimp only at hstep
    cases hi : w.objects i with
    | none =>
      rw [hi] at hstep
      cases hstep
    | some o =>
      rw [hi] at hstep
      dsimp only at hstep
      obtain ⟨m, t, hm, hrep, hrefines⟩ := h.live i o hi
      obtain ⟨t', hold, hdepth, -⟩ := howned.depth hi
      have hspec := (hrep.perform (I.client o.rng) op).and
        (perform_settles (I.client o.rng) hold (howned.nodup i) hdepth op)
      rcases hspec.cases with ⟨r, u, hdone, ⟨hr, hrep'⟩, -, now, -, -, hsettled⟩ | ⟨u, hthrew, -⟩
      · rw [hdone] at hstep
        cases hstep
        obtain ⟨hresult, hrefines'⟩ := step_refines hrefines (I.seeded o.rng) op
        refine .inl ⟨rfl, Function.update maps i (some (m.apply op).1), ?_, ?_⟩
        · unfold Maps.step
          dsimp only
          rw [hm, hr]
          exact congrArg (fun r => some (_, [Event.result r])) hresult.symm
        · apply h.call howned hsettled
          · intro o' ho
            cases ho
            exact ⟨_, _, rfl, ⟨hrep'.tree, hrep'.size, hrep'.count, hrep'.drawn⟩, hrefines'⟩
          · intro ho
            cases ho
      · rw [hthrew] at hstep
        cases hstep
        have hsame := same_of_threw (I.client o.rng) hassign hthrew
        refine .inr ⟨rfl, rfl, ?_⟩
        rw [← Function.update_eq_self i maps]
        have hsettled : Settled w.heap (owns i) u.heap (owns i) := by
          rw [hsame.heap]
          exact settled_refl w.heap (owns i)
        apply h.call howned hsettled
        · intro o' ho
          cases ho
          refine ⟨m, { t with drawn := u.drawn }, hm, ?_, hrefines.entries, hrefines.size⟩
          rw [hsame.heap, hsame.root, hsame.size]
          exact ⟨hrep.tree, hrep.size, hrep.count, rfl⟩
        · intro ho
          cases ho
  | destruct i =>
    unfold World.step at hstep
    dsimp only at hstep
    cases hi : w.objects i with
    | none =>
      rw [hi] at hstep
      cases hstep
    | some o =>
      rw [hi] at hstep
      dsimp only at hstep
      obtain ⟨m, t, hm, -⟩ := h.live i o hi
      obtain ⟨u, hdone, -, -, hsettled⟩ := howned.clear hi
      rw [hdone] at hstep
      cases hstep
      refine .inl ⟨rfl, Function.update maps i none, ?_, ?_⟩
      · unfold Maps.step
        dsimp only
        rw [hm]
      · apply h.call howned hsettled
        · intro o' ho
          cases ho
        · intro _
          rfl

end Maps

/-- A program over any number of maps sees what it would see with finite maps, where a move hands
over the map and leaves the empty one, and where the calls that threw have not been made. -/
theorem moved_maps_refine (I : Instance K V) [IsStrictWeakOrder K fun a b => I.comp a b = true]
    (hassign : ∀ n, I.throwsAt .assignValue n = false) {actions : List (Linked.Action K V)}
    {w : World K V} {trace : List (Event V)} (h : (World.machine I).Run {} actions w trace) :
    ∃ maps, (Maps.machine I.comp).Run (fun _ => none)
        ((World.machine I).effective answered {} actions) maps (trace.filter answered) ∧
      (∀ i, (maps i).isSome = (w.objects i).isSome) ∧
      ∀ i o m, w.objects i = some o → maps i = some m → o.size = m.keys.card := by
  have hrun : ∃ maps, (Maps.machine I.comp).Run (fun _ => none)
      ((World.machine I).effective answered {} actions) maps (trace.filter answered) ∧
      (∃ owns, Owned w owns) ∧ Agrees w maps := by
    apply h.effective (R := fun w maps => (∃ owns, Owned w owns) ∧ Agrees w maps)
      ⟨⟨_, owned_start⟩, agrees_start⟩
    intro w maps action w' seen hR hstep
    obtain ⟨⟨owns, howned⟩, hagrees⟩ := hR
    have howned' := (step_owned I howned hstep).1
    rcases step_agrees hassign howned hagrees hstep with ⟨hall, maps', hstep', hagrees'⟩ |
      ⟨hnot, hnone, hagrees'⟩
    · exact .inl ⟨hall, maps', hstep', howned', hagrees'⟩
    · exact .inr ⟨hnot, hnone, howned', hagrees'⟩
  obtain ⟨maps, hmaps, -, hagrees⟩ := hrun
  refine ⟨maps, hmaps, fun i => ?_, fun i o m hi hm => ?_⟩
  · cases hi : w.objects i with
    | none =>
      rw [hagrees.dead i hi]
      rfl
    | some o =>
      obtain ⟨m, -, hm, -⟩ := hagrees.live i o hi
      rw [hm]
      rfl
  · obtain ⟨m', t, hm', hrep, hrefines⟩ := hagrees.live i o hi
    rw [hm] at hm'
    cases hm'
    exact hrep.size.trans hrefines.size

/-! ## A program that runs short of memory once -/

/-- Numbers in order, all of one priority, where the call number `k` fails if it is to allocate a
node. -/
def shortOfMemory (k : Nat) : Instance Int Int where
  comp a b := decide (a < b)
  seeded _ _ := 0
  throwsAt c n := c == .allocate && n == k
  torn _ _ := 0

instance (k : Nat) : IsStrictWeakOrder Int fun a b => (shortOfMemory k).comp a b = true where
  irrefl a := by simp [shortOfMemory]
  trans a b c hab hbc := by
    simp only [shortOfMemory, decide_eq_true_eq] at hab hbc ⊢
    omega
  incomp_trans a b c hab hbc := by
    simp only [shortOfMemory, decide_eq_true_eq] at hab hbc ⊢
    omega

theorem moved_maps_refine_handed_on :
    ∃ maps, (Maps.machine (shortOfMemory 9).comp).Run (fun _ => none)
      ((World.machine (shortOfMemory 9)).effective answered {} handedOn) maps
      [.result (.flag true), .result (.flag true), .result (.flag true), .result (.count 2)] := by
  have hrun : ∃ w, (World.machine (shortOfMemory 9)).Run {} handedOn w
      [.result (.flag true), .result (.flag true), .threw, .result (.flag true),
        .result (.count 2)] := Machine.run_of_trace (by decide +kernel)
  obtain ⟨w, hrun⟩ := hrun
  obtain ⟨maps, hmaps, -⟩ := moved_maps_refine (shortOfMemory 9) (fun n => rfl) hrun
  simp only [List.filter, answered] at hmaps
  exact ⟨maps, hmaps⟩

end CppCodes.Guarantees.MovedTreaps
