import CppCodes.Library.Machine
import Mathlib.Order.Nat

/-!
# Loops and their code with two brackets

A language of commands and loops that run while a guard holds, with a big-step
semantics, and the flat code that an instruction pointer runs through. In the code
a loop is its body between an opening instruction that knows where it closes and a
closing one that knows where it opens; both test the guard, so the closing one jumps
past the test of the other.

The code does what the block does: it ends where and as the block does, with the
same output (`ends_iff`, `fails_iff`), and what it has put out at any time is what
some part of the block's execution puts out (`emits_iff`), which for an execution
without end is all there is.
-/

set_option autoImplicit false

namespace CppCodes.Library.LoopCode

/-- A sequence of commands and loops. -/
inductive Block (α : Type*) where
  | done
  | cmd (c : α) (rest : Block α)
  | loop (body rest : Block α)
  deriving DecidableEq

/-- What a command does, with its output, and when a loop goes on. -/
structure Lang (α σ ε ο : Type*) where
  act : α → σ → Except ε (σ × List ο)
  guard : σ → Bool

inductive End (σ ε : Type*) where
  | normal (s : σ)
  | failed (e : ε)

variable {α σ ε ο : Type*} (L : Lang α σ ε ο)

/-- A terminating execution of a block, with its output. -/
inductive Exec : Block α → σ → List ο → End σ ε → Prop where
  | done (s : σ) : Exec .done s [] (.normal s)
  | cmd {c : α} {rest : Block α} {s t : σ} {out later : List ο} {r : End σ ε}
      (act : L.act c s = .ok (t, out)) (next : Exec rest t later r) :
      Exec (.cmd c rest) s (out ++ later) r
  | fail {c : α} {rest : Block α} {s : σ} {e : ε} (act : L.act c s = .error e) :
      Exec (.cmd c rest) s [] (.failed e)
  | leave {body rest : Block α} {s : σ} {out : List ο} {r : End σ ε} (guard : L.guard s = false)
      (next : Exec rest s out r) : Exec (.loop body rest) s out r
  | again {body rest : Block α} {s t : σ} {out later : List ο} {r : End σ ε}
      (guard : L.guard s = true) (once : Exec body s out (.normal t))
      (next : Exec (.loop body rest) t later r) : Exec (.loop body rest) s (out ++ later) r
  | failBody {body rest : Block α} {s : σ} {out : List ο} {e : ε} (guard : L.guard s = true)
      (once : Exec body s out (.failed e)) : Exec (.loop body rest) s out (.failed e)

/-- What an execution, terminating or not, has put out after a part of it. -/
inductive Emits : Block α → σ → List ο → Prop where
  | nothing (b : Block α) (s : σ) : Emits b s []
  | cmd {c : α} {rest : Block α} {s t : σ} {out later : List ο} (act : L.act c s = .ok (t, out))
      (next : Emits rest t later) : Emits (.cmd c rest) s (out ++ later)
  | leave {body rest : Block α} {s : σ} {out : List ο} (guard : L.guard s = false)
      (next : Emits rest s out) : Emits (.loop body rest) s out
  | inside {body rest : Block α} {s : σ} {out : List ο} (guard : L.guard s = true)
      (part : Emits body s out) : Emits (.loop body rest) s out
  | again {body rest : Block α} {s t : σ} {out later : List ο} (guard : L.guard s = true)
      (once : Exec L body s out (.normal t)) (next : Emits (.loop body rest) t later) :
      Emits (.loop body rest) s (out ++ later)

variable {L}

theorem Exec.emits {b : Block α} {s : σ} {out : List ο} {r : End σ ε} (h : Exec L b s out r) :
    Emits L b s out := by
  induction h with
  | done s => exact .nothing _ s
  | cmd act _ ih => exact .cmd act ih
  | fail _ => exact .nothing _ _
  | leave guard _ ih => exact .leave guard ih
  | again guard once _ _ ih => exact .again guard once ih
  | failBody guard _ ih => exact .inside guard ih

/-- A block ends in one way at most. -/
theorem Exec.deterministic {b : Block α} {s : σ} {out out' : List ο} {r r' : End σ ε}
    (h : Exec L b s out r) (h' : Exec L b s out' r') : out = out' ∧ r = r' := by
  induction h generalizing out' r' with
  | done s =>
    cases h'
    exact ⟨rfl, rfl⟩
  | cmd act _ ih =>
    cases h' with
    | cmd act' next' =>
      rw [act] at act'
      cases act'
      obtain ⟨rfl, rfl⟩ := ih next'
      exact ⟨rfl, rfl⟩
    | fail act' =>
      rw [act] at act'
      cases act'
  | fail act =>
    cases h' with
    | cmd act' _ =>
      rw [act] at act'
      cases act'
    | fail act' =>
      rw [act] at act'
      cases act'
      exact ⟨rfl, rfl⟩
  | leave guard _ ih =>
    cases h' with
    | leave _ next' => exact ih next'
    | again guard' _ _ =>
      rw [guard] at guard'
      cases guard'
    | failBody guard' _ =>
      rw [guard] at guard'
      cases guard'
  | again guard _ _ ihOnce ihNext =>
    cases h' with
    | leave guard' _ =>
      rw [guard] at guard'
      cases guard'
    | again _ once' next' =>
      obtain ⟨rfl, hr⟩ := ihOnce once'
      cases hr
      obtain ⟨rfl, rfl⟩ := ihNext next'
      exact ⟨rfl, rfl⟩
    | failBody _ once' => cases (ihOnce once').2
  | failBody guard _ ih =>
    cases h' with
    | leave guard' _ =>
      rw [guard] at guard'
      cases guard'
    | again _ once' _ => cases (ih once').2
    | failBody _ once' =>
      obtain ⟨rfl, hr⟩ := ih once'
      exact ⟨rfl, hr⟩

/-! ## The code -/

inductive Instr (α : Type*) where
  | skip
  | act (c : α)
  /-- Opens a loop that closes at this position. -/
  | opening (close : Nat)
  /-- Closes the loop that opens at this position. -/
  | closing (start : Nat)

inductive Config (σ ε : Type*) where
  | running (ip : Nat) (s : σ)
  | ended (s : σ)
  | failed (e : ε)

/-- One instruction; where there is none, the code has ended. -/
def step (L : Lang α σ ε ο) (fetch : Nat → Option (Instr α)) :
    Config σ ε → Option (Config σ ε × List ο)
  | .running ip s =>
      match fetch ip with
      | none => some (.ended s, [])
      | some .skip => some (.running (ip + 1) s, [])
      | some (.act c) =>
          match L.act c s with
          | .ok (t, out) => some (.running (ip + 1) t, out)
          | .error e => some (.failed e, [])
      | some (.opening close) => some (.running (if L.guard s then ip + 1 else close + 1) s, [])
      | some (.closing start) => some (.running (if L.guard s then start + 1 else ip + 1) s, [])
  | _ => none

def machine (L : Lang α σ ε ο) (fetch : Nat → Option (Instr α)) :
    Machine (Config σ ε) Unit ο where
  step c _ := step L fetch c

section Steps

variable {fetch : Nat → Option (Instr α)} {ip : Nat} {s : σ}

theorem step_none (h : fetch ip = none) : step L fetch (.running ip s) = some (.ended s, []) := by
  rw [step, h]

theorem step_skip (h : fetch ip = some .skip) :
    step L fetch (.running ip s) = some (.running (ip + 1) s, []) := by
  rw [step, h]

theorem step_act {c : α} {t : σ} {out : List ο} (h : fetch ip = some (.act c))
    (act : L.act c s = .ok (t, out)) :
    step L fetch (.running ip s) = some (.running (ip + 1) t, out) := by
  rw [step, h]
  simp only [act]

theorem step_fail {c : α} {e : ε} (h : fetch ip = some (.act c)) (act : L.act c s = .error e) :
    step L fetch (.running ip s) = some (.failed e, []) := by
  rw [step, h]
  simp only [act]

theorem step_opening {close : Nat} (h : fetch ip = some (.opening close)) :
    step L fetch (.running ip s) =
      some (.running (if L.guard s then ip + 1 else close + 1) s, []) := by
  rw [step, h]

theorem step_closing {start : Nat} (h : fetch ip = some (.closing start)) :
    step L fetch (.running ip s) =
      some (.running (if L.guard s then start + 1 else ip + 1) s, []) := by
  rw [step, h]

end Steps

/-- The code between two positions is that of the block. -/
inductive Encodes (fetch : Nat → Option (Instr α)) : Nat → Block α → Nat → Prop where
  | done (i : Nat) : Encodes fetch i .done i
  | skip {i j : Nat} {b : Block α} (here : fetch i = some .skip) (next : Encodes fetch (i + 1) b j) :
      Encodes fetch i b j
  | cmd {i j : Nat} {c : α} {rest : Block α} (here : fetch i = some (.act c))
      (next : Encodes fetch (i + 1) rest j) : Encodes fetch i (.cmd c rest) j
  | loop {i k j : Nat} {body rest : Block α} (opening : fetch i = some (.opening k))
      (inner : Encodes fetch (i + 1) body k) (closing : fetch k = some (.closing i))
      (next : Encodes fetch (k + 1) rest j) : Encodes fetch i (.loop body rest) j

variable {fetch : Nat → Option (Instr α)}

theorem Encodes.le {i j : Nat} {b : Block α} (h : Encodes fetch i b j) : i ≤ j := by
  induction h with
  | done => exact Nat.le_refl _
  | skip _ _ ih => omega
  | cmd _ _ ih => omega
  | loop _ _ _ _ ihInner ihNext => omega

/-- There is an instruction at every position of the code. -/
theorem Encodes.covers {i j : Nat} {b : Block α} (h : Encodes fetch i b j) {p : Nat} (low : i ≤ p)
    (high : p < j) : (fetch p).isSome = true := by
  induction h with
  | done => omega
  | @skip i j b here _ ih =>
    by_cases hp : p = i
    · rw [hp, here]
      rfl
    · exact ih (by omega) high
  | @cmd i j c rest here _ ih =>
    by_cases hp : p = i
    · rw [hp, here]
      rfl
    · exact ih (by omega) high
  | @loop i k j body rest opening _ closing _ ihInner ihNext =>
    by_cases hi : p = i
    · rw [hi, opening]
      rfl
    · by_cases hk : p = k
      · rw [hk, closing]
        rfl
      · rcases Nat.lt_or_ge p k with hlt | hge
        · exact ihInner (by omega) hlt
        · exact ihNext (by omega) high

/-- The brackets of the code point into the code. -/
theorem Encodes.target_lt {i j : Nat} {b : Block α} (h : Encodes fetch i b j) {p target : Nat}
    (low : i ≤ p) (high : p < j)
    (here : fetch p = some (.opening target) ∨ fetch p = some (.closing target)) : target < j := by
  induction h with
  | done => omega
  | @skip i j b skip _ ih =>
    by_cases hp : p = i
    · rw [hp, skip] at here
      rcases here with here | here <;> cases here
    · exact ih (by omega) high
  | @cmd i j c rest cmd _ ih =>
    by_cases hp : p = i
    · rw [hp, cmd] at here
      rcases here with here | here <;> cases here
    · exact ih (by omega) high
  | @loop i k j body rest opening inner closing next ihInner ihNext =>
    have hinner := inner.le
    have hnext := next.le
    by_cases hi : p = i
    · rw [hi, opening] at here
      rcases here with here | here
      · cases here
        omega
      · cases here
    · by_cases hk : p = k
      · rw [hk, closing] at here
        rcases here with here | here
        · cases here
        · cases here
          omega
      · rcases Nat.lt_or_ge p k with hlt | hge
        · have hbody := ihInner (by omega) hlt
          omega
        · exact ihNext (by omega) high

/-- Only the instructions between the two positions count. -/
theorem Encodes.congr {fetch' : Nat → Option (Instr α)} {i j : Nat} {b : Block α}
    (h : Encodes fetch i b j) (same : ∀ p, i ≤ p → p < j → fetch' p = fetch p) :
    Encodes fetch' i b j := by
  induction h with
  | done i => exact .done i
  | @skip i j b here next ih =>
    have hle := next.le
    exact .skip ((same i (Nat.le_refl i) (by omega)).trans here)
      (ih fun p hlow hhigh => same p (by omega) hhigh)
  | @cmd i j c rest here next ih =>
    have hle := next.le
    exact .cmd ((same i (Nat.le_refl i) (by omega)).trans here)
      (ih fun p hlow hhigh => same p (by omega) hhigh)
  | @loop i k j body rest opening inner closing next ihInner ihNext =>
    have hinner := inner.le
    have hnext := next.le
    exact .loop ((same i (Nat.le_refl i) (by omega)).trans opening)
      (ihInner fun p hlow hhigh => same p (by omega) (by omega))
      ((same k (by omega) (by omega)).trans closing)
      (ihNext fun p hlow hhigh => same p (by omega) hhigh)

/-- Where the execution of a block may stand at its beginning: at its code or, for a
loop, at the closing instruction, which tests the guard as well. -/
inductive Entry (fetch : Nat → Option (Instr α)) : Nat → Block α → Nat → Prop where
  | here {p j : Nat} {b : Block α} (code : Encodes fetch p b j) : Entry fetch p b j
  | again {i k j : Nat} {body rest : Block α} (inner : Encodes fetch (i + 1) body k)
      (closing : fetch k = some (.closing i)) (next : Encodes fetch (k + 1) rest j) :
      Entry fetch k (.loop body rest) j

/-- The code runs from one configuration to another with this output. -/
def Reaches (L : Lang α σ ε ο) (fetch : Nat → Option (Instr α)) (c : Config σ ε) (out : List ο)
    (d : Config σ ε) : Prop :=
  ∃ actions, (machine L fetch).Run c actions d out

theorem Reaches.refl (c : Config σ ε) : Reaches L fetch c [] c := ⟨[], Machine.Run.nil c⟩

theorem Reaches.step {c d e : Config σ ε} {out later : List ο}
    (first : LoopCode.step L fetch c = some (d, out)) (rest : Reaches L fetch d later e) :
    Reaches L fetch c (out ++ later) e := by
  obtain ⟨actions, hrun⟩ := rest
  exact ⟨() :: actions, Machine.Run.cons first hrun⟩

theorem Reaches.trans {c d e : Config σ ε} {out later : List ο} (first : Reaches L fetch c out d)
    (second : Reaches L fetch d later e) : Reaches L fetch c (out ++ later) e := by
  obtain ⟨actions, hrun⟩ := first
  obtain ⟨actions', hrun'⟩ := second
  exact ⟨actions ++ actions', hrun.append hrun'⟩

/-! ## What the block does, the code does -/

/-- A position of a sequence that starts with a command runs up to the command. -/
theorem Entry.cmd {p j : Nat} {c : α} {rest : Block α} (h : Entry fetch p (.cmd c rest) j) (s : σ) :
    ∃ q, Reaches L fetch (.running p s) [] (.running q s) ∧ fetch q = some (.act c) ∧
      Encodes fetch (q + 1) rest j := by
  cases h with
  | here code =>
    generalize hb : Block.cmd c rest = b at code
    induction code with
    | done => cases hb
    | @skip i j b here _ ih =>
      obtain ⟨q, hreach, hq⟩ := ih hb
      exact ⟨q, Reaches.step (step_skip here) hreach, hq⟩
    | @cmd i j c' rest' here next _ =>
      cases hb
      exact ⟨i, Reaches.refl _, here, next⟩
    | loop => cases hb

theorem Entry.done {p j : Nat} (h : Entry fetch p (.done : Block α) j) (s : σ) :
    Reaches L fetch (.running p s) [] (.running j s) := by
  cases h with
  | here code =>
    generalize hb : (Block.done : Block α) = b at code
    induction code with
    | done => exact Reaches.refl _
    | @skip i j b here _ ih => exact Reaches.step (step_skip here) (ih hb)
    | cmd => cases hb
    | loop => cases hb

/-- From either bracket of a loop the guard decides between the body and the rest. -/
theorem Entry.loop {p j : Nat} {body rest : Block α} (h : Entry fetch p (.loop body rest) j)
    (s : σ) :
    ∃ i k, Encodes fetch (i + 1) body k ∧ fetch k = some (.closing i) ∧
      Encodes fetch (k + 1) rest j ∧
      Reaches L fetch (.running p s) [] (.running (if L.guard s then i + 1 else k + 1) s) := by
  cases h with
  | here code =>
    generalize hb : Block.loop body rest = b at code
    induction code with
    | done => cases hb
    | @skip i j b here _ ih =>
      obtain ⟨i', k, hinner, hclosing, hnext, hreach⟩ := ih hb
      exact ⟨i', k, hinner, hclosing, hnext, Reaches.step (step_skip here) hreach⟩
    | cmd => cases hb
    | @loop i k j body' rest' opening inner closing next _ _ =>
      cases hb
      exact ⟨i, k, inner, closing, next, Reaches.step (step_opening opening) (Reaches.refl _)⟩
  | @again i k _ _ _ inner closing next =>
    exact ⟨i, p, inner, closing, next, Reaches.step (step_closing closing) (Reaches.refl _)⟩

/-- Where the code stands after an execution. -/
def End.at (j : Nat) : End σ ε → Config σ ε
  | .normal s => .running j s
  | .failed e => .failed e

theorem Exec.reaches {b : Block α} {s : σ} {out : List ο} {r : End σ ε} (h : Exec L b s out r)
    {p j : Nat} (entry : Entry fetch p b j) :
    Reaches L fetch (.running p s) out (r.at j) := by
  induction h generalizing p j with
  | done s => exact entry.done s
  | @cmd c rest s t out later r act _ ih =>
    obtain ⟨q, hstart, hq, hrest⟩ := entry.cmd s
    exact hstart.trans (Reaches.step (step_act hq act) (ih (.here hrest)))
  | @fail c rest s e act =>
    obtain ⟨q, hstart, hq, -⟩ := entry.cmd s
    exact hstart.trans (Reaches.step (step_fail hq act) (Reaches.refl _))
  | @leave body rest s out r guard _ ih =>
    obtain ⟨i, k, -, -, hnext, hstart⟩ := entry.loop s
    rw [guard, if_neg Bool.false_ne_true] at hstart
    exact hstart.trans (ih (.here hnext))
  | @again body rest s t out later r guard _ _ ihOnce ihNext =>
    obtain ⟨i, k, hinner, hclosing, hnext, hstart⟩ := entry.loop s
    rw [guard, if_pos rfl] at hstart
    exact hstart.trans ((ihOnce (.here hinner)).trans (ihNext (.again hinner hclosing hnext)))
  | @failBody body rest s out e guard _ ih =>
    obtain ⟨i, k, hinner, -, -, hstart⟩ := entry.loop s
    rw [guard, if_pos rfl] at hstart
    exact hstart.trans (ih (j := k) (.here hinner))

theorem Emits.reaches {b : Block α} {s : σ} {out : List ο} (h : Emits L b s out) {p j : Nat}
    (entry : Entry fetch p b j) : ∃ c, Reaches L fetch (.running p s) out c := by
  induction h generalizing p j with
  | nothing b s => exact ⟨_, Reaches.refl _⟩
  | @cmd c rest s t out later act _ ih =>
    obtain ⟨q, hstart, hq, hrest⟩ := entry.cmd s
    obtain ⟨d, hd⟩ := ih (.here hrest)
    exact ⟨d, hstart.trans (Reaches.step (step_act hq act) hd)⟩
  | @leave body rest s out guard _ ih =>
    obtain ⟨i, k, -, -, hnext, hstart⟩ := entry.loop s
    rw [guard, if_neg Bool.false_ne_true] at hstart
    obtain ⟨d, hd⟩ := ih (.here hnext)
    exact ⟨d, hstart.trans hd⟩
  | @inside body rest s out guard _ ih =>
    obtain ⟨i, k, hinner, -, -, hstart⟩ := entry.loop s
    rw [guard, if_pos rfl] at hstart
    obtain ⟨d, hd⟩ := ih (.here hinner)
    exact ⟨d, hstart.trans hd⟩
  | @again body rest s t out later guard once _ ih =>
    obtain ⟨i, k, hinner, hclosing, hnext, hstart⟩ := entry.loop s
    rw [guard, if_pos rfl] at hstart
    obtain ⟨d, hd⟩ := ih (.again hinner hclosing hnext)
    exact ⟨d, hstart.trans ((once.reaches (.here hinner)).trans hd)⟩

/-! ## What the code does, the block does -/

/-- A run from the entry of a block stands inside it, has gone through it, or has
failed in it. -/
inductive Progress (L : Lang α σ ε ο) (fetch : Nat → Option (Instr α)) (b : Block α) (s : σ)
    (j : Nat) (length : Nat) : Config σ ε → List ο → Prop where
  | inside {p : Nat} {t : σ} {out : List ο} (part : Emits L b s out) :
      Progress L fetch b s j length (.running p t) out
  | through {t : σ} {out later : List ο} {c : Config σ ε} {rest : List Unit}
      (exec : Exec L b s out (.normal t)) (shorter : rest.length ≤ length)
      (run : (machine L fetch).Run (.running j t) rest c later) :
      Progress L fetch b s j length c (out ++ later)
  | failed {e : ε} {out : List ο} (exec : Exec L b s out (.failed e)) :
      Progress L fetch b s j length (.failed e) out

/-- Nothing follows a configuration that has no step. -/
theorem run_stuck {c d : Config σ ε} {actions : List Unit} {out : List ο}
    (stuck : LoopCode.step L fetch c = none) (h : (machine L fetch).Run c actions d out) :
    d = c ∧ out = [] := by
  cases actions with
  | nil => exact Machine.run_nil_iff.mp h
  | cons a rest =>
    obtain ⟨t, seen, later, hstep, -, -⟩ := Machine.run_cons_iff.mp h
    have hsome : LoopCode.step L fetch c = some (t, seen) := hstep
    rw [stuck] at hsome
    cases hsome

theorem run_progress (n : Nat) {b : Block α} {s : σ} {p j : Nat} {actions : List Unit}
    {c : Config σ ε} {out : List ο} (length : actions.length = n) (entry : Entry fetch p b j)
    (run : (machine L fetch).Run (.running p s) actions c out) :
    Progress L fetch b s j n c out := by
  -- by the number of steps: the body, another round and the rest all start later
  induction n using Nat.strong_induction_on generalizing b s p j actions c out with
  | h n ih =>
  cases actions with
  | nil =>
    obtain ⟨rfl, rfl⟩ := Machine.run_nil_iff.mp run
    exact .inside (.nothing b s)
  | cons a actions =>
    rw [List.length_cons] at length
    obtain ⟨d, seen, later, hstep, hrest, rfl⟩ := Machine.run_cons_iff.mp run
    replace hstep : LoopCode.step L fetch (.running p s) = some (d, seen) := hstep
    -- from a bracket of the loop, once the guard has been tested
    have hloop : ∀ {body rest : Block α} {i k : Nat}, Encodes fetch (i + 1) body k →
        fetch k = some (.closing i) → Encodes fetch (k + 1) rest j →
        d = .running (if L.guard s then i + 1 else k + 1) s → seen = [] →
        Progress L fetch (.loop body rest) s j n c (seen ++ later) := by
      intro body rest i k hinner hclosing hnext hsame heq
      obtain rfl := hsame
      obtain rfl := heq
      rw [List.nil_append]
      cases hguard : L.guard s with
      | false =>
        rw [hguard, if_neg Bool.false_ne_true] at hrest
        cases ih actions.length (by omega) rfl (.here hnext) hrest with
        | inside part => exact .inside (.leave hguard part)
        | through exec shorter run' => exact .through (.leave hguard exec) (by omega) run'
        | failed exec => exact .failed (.leave hguard exec)
      | true =>
        rw [hguard, if_pos rfl] at hrest
        cases ih actions.length (by omega) rfl (.here hinner) hrest with
        | inside part => exact .inside (.inside hguard part)
        | failed exec => exact .failed (.failBody hguard exec)
        | @through t out' later' _ rest' once shorter run' =>
          cases ih rest'.length (by omega) rfl (.again hinner hclosing hnext) run' with
          | inside part => exact .inside (.again hguard once part)
          | failed exec => exact .failed (.again hguard once exec)
          | through exec shorter' run'' =>
            rw [← List.append_assoc]
            exact .through (.again hguard once exec) (by omega) run''
    cases entry with
    | again inner closing next =>
      rw [step_closing closing] at hstep
      obtain ⟨rfl, rfl⟩ := Prod.mk.inj (Option.some.inj hstep)
      exact hloop inner closing next rfl rfl
    | here code =>
      cases code with
      | done =>
        have hlength : (a :: actions).length ≤ n := by rw [List.length_cons, length]
        have hthrough : Progress L fetch .done s p n c ([] ++ (seen ++ later)) :=
          .through (.done s) hlength run
        exact hthrough
      | skip here next =>
        rw [step_skip here] at hstep
        obtain ⟨rfl, rfl⟩ := Prod.mk.inj (Option.some.inj hstep)
        rw [List.nil_append]
        cases ih actions.length (by omega) rfl (.here next) hrest with
        | inside part => exact .inside part
        | through exec shorter run' => exact .through exec (by omega) run'
        | failed exec => exact .failed exec
      | @cmd _ _ cmd rest here next =>
        cases hact : L.act cmd s with
        | error e =>
          rw [step_fail here hact] at hstep
          obtain ⟨rfl, rfl⟩ := Prod.mk.inj (Option.some.inj hstep)
          obtain ⟨rfl, rfl⟩ := run_stuck rfl hrest
          exact .failed (.fail hact)
        | ok result =>
          obtain ⟨t, out⟩ := result
          rw [step_act here hact] at hstep
          obtain ⟨rfl, rfl⟩ := Prod.mk.inj (Option.some.inj hstep)
          cases ih actions.length (by omega) rfl (.here next) hrest with
          | inside part => exact .inside (.cmd hact part)
          | failed exec => exact .failed (.cmd hact exec)
          | through exec shorter run' =>
            rw [← List.append_assoc]
            exact .through (.cmd hact exec) (by omega) run'
      | loop opening inner closing next =>
        rw [step_opening opening] at hstep
        obtain ⟨rfl, rfl⟩ := Prod.mk.inj (Option.some.inj hstep)
        exact hloop inner closing next rfl rfl

/-! ## Whole programs -/

section Whole

variable {b : Block α} {n : Nat} {s : σ}

/-- After its last instruction the code ends without more output. -/
theorem run_behind {t : σ} {actions : List Unit} {c : Config σ ε} {out : List ο}
    (behind : fetch n = none) (h : (machine L fetch).Run (.running n t) actions c out) :
    (c = .running n t ∨ c = .ended t) ∧ out = [] := by
  cases actions with
  | nil =>
    obtain ⟨rfl, rfl⟩ := Machine.run_nil_iff.mp h
    exact ⟨Or.inl rfl, rfl⟩
  | cons a rest =>
    obtain ⟨d, seen, later, hstep, hrest, rfl⟩ := Machine.run_cons_iff.mp h
    replace hstep : LoopCode.step L fetch (.running n t) = some (d, seen) := hstep
    rw [step_none behind] at hstep
    obtain ⟨rfl, rfl⟩ := Prod.mk.inj (Option.some.inj hstep)
    obtain ⟨rfl, rfl⟩ := run_stuck rfl hrest
    exact ⟨Or.inr rfl, rfl⟩

theorem ends_iff (code : Encodes fetch 0 b n) (behind : fetch n = none) {t : σ} {out : List ο} :
    Reaches L fetch (.running 0 s) out (.ended t) ↔ Exec L b s out (.normal t) := by
  constructor
  · intro hboth
    obtain ⟨actions, hrun⟩ := hboth
    cases run_progress actions.length rfl (.here code) hrun with
    | through exec shorter run =>
      obtain ⟨hc, rfl⟩ := run_behind behind run
      rcases hc with hc | hc
      · cases hc
      · cases hc
        rw [List.append_nil]
        exact exec
  · intro h
    have hend : Reaches L fetch (.running n t) [] (.ended t) :=
      Reaches.step (step_none behind) (Reaches.refl _)
    have hall := (h.reaches (.here code)).trans hend
    rwa [List.append_nil] at hall

theorem fails_iff (code : Encodes fetch 0 b n) (behind : fetch n = none) {e : ε} {out : List ο} :
    Reaches L fetch (.running 0 s) out (.failed e) ↔ Exec L b s out (.failed e) := by
  constructor
  · intro hboth
    obtain ⟨actions, hrun⟩ := hboth
    cases run_progress actions.length rfl (.here code) hrun with
    | failed exec => exact exec
    | through exec shorter run =>
      obtain ⟨hc, -⟩ := run_behind behind run
      rcases hc with hc | hc
      · cases hc
      · cases hc
  · exact fun h => h.reaches (.here code)

theorem emits_iff (code : Encodes fetch 0 b n) (behind : fetch n = none) {out : List ο} :
    (∃ c, Reaches L fetch (.running 0 s) out c) ↔ Emits L b s out := by
  constructor
  · intro hparts
    obtain ⟨c, actions, hrun⟩ := hparts
    cases run_progress actions.length rfl (.here code) hrun with
    | inside part => exact part
    | failed exec => exact exec.emits
    | through exec shorter run =>
      obtain ⟨-, rfl⟩ := run_behind behind run
      rw [List.append_nil]
      exact exec.emits
  · exact fun h => h.reaches (.here code)

end Whole

end CppCodes.Library.LoopCode
