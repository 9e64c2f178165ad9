import CppCodes.Source.Others.BrainFuckTree

/-!
# The interpreter runs the syntax tree

The text with the two jump tables is flat code of the tree that it is parsed into
(`prepareJumpTable_encodes`), and the interpreter goes through this code step by
step (`step_matches`), so it does what the tree means: it returns when the tree's
execution ends, with the same output, the same memory and the same outcome, and has
put out at any time what a part of the execution puts out. The jump tables hold
positions as `int`, so this is for brackets below position `2 ^ 31`.
-/

set_option autoImplicit false

namespace CppCodes.Guarantees.InterpreterRefinement

open CppCodes.Library CppCodes.Source.Others.BrainFuck
open CppCodes.Library.LoopCode (Config Emits Encodes End Exec Instr)

/-- Every bracket stands at a position that an `int` can hold. -/
def BracketsFit (text : List Char) : Prop :=
  ∀ i, text[i]? = some '[' ∨ text[i]? = some ']' → i < 2 ^ 31

theorem bracketsFit_of_length {text : List Char} (h : text.length ≤ 2 ^ 31) : BracketsFit text := by
  intro i hi
  have hlt : i < text.length := by
    rcases hi with hi | hi <;> exact (List.getElem?_eq_some_iff.mp hi).1
  omega

/-! ## The text with its jump tables is code of the tree -/

/-- What the interpreter does at a position. -/
def fetch (text : List Char) (forward backward : Table) (ip : Nat) : Option (Instr Located) :=
  match text[ip]? with
  | none => none
  | some ch =>
      if isWhiteSpace ch then some .skip
      else
        match commandOf ch with
        | some c => some (.act (ip, c))
        | none =>
            if ch = '[' then
              (forward.lookup (intOfSize ip)).map fun target => .opening (sizeOfInt target)
            else if ch = ']' then
              (backward.lookup (intOfSize ip)).map fun target => .closing (sizeOfInt target)
            else none

section Fetch

variable {text : List Char} {forward backward : Table} {ip : Nat}

theorem fetch_space {ch : Char} (here : text[ip]? = some ch) (white : isWhiteSpace ch = true) :
    fetch text forward backward ip = some .skip := by
  unfold fetch
  rw [here]
  dsimp only
  rw [if_pos white]

variable (forward backward) in
theorem fetch_command {ch : Char} {c : Command} (here : text[ip]? = some ch)
    (white : isWhiteSpace ch = false) (command : commandOf ch = some c) :
    fetch text forward backward ip = some (.act (ip, c)) := by
  unfold fetch
  rw [here]
  dsimp only
  rw [if_neg (by rw [white]; exact Bool.false_ne_true), command]

theorem fetch_opening (here : text[ip]? = some '[') :
    fetch text forward backward ip =
      (forward.lookup (intOfSize ip)).map fun target => .opening (sizeOfInt target) := by
  unfold fetch
  rw [here]
  rfl

theorem fetch_closing (here : text[ip]? = some ']') :
    fetch text forward backward ip =
      (backward.lookup (intOfSize ip)).map fun target => .closing (sizeOfInt target) := by
  unfold fetch
  rw [here]
  rfl

/-- The tables count at brackets only. -/
theorem fetch_congr {forward' backward' : Table}
    (opening : text[ip]? = some '[' →
      forward'.lookup (intOfSize ip) = forward.lookup (intOfSize ip))
    (closing : text[ip]? = some ']' →
      backward'.lookup (intOfSize ip) = backward.lookup (intOfSize ip)) :
    fetch text forward' backward' ip = fetch text forward backward ip := by
  by_cases hopen : text[ip]? = some '['
  · rw [fetch_opening hopen, fetch_opening hopen, opening hopen]
  · by_cases hclose : text[ip]? = some ']'
    · rw [fetch_closing hclose, fetch_closing hclose, closing hclose]
    · unfold fetch
      cases hch : text[ip]? with
      | none => rfl
      | some ch =>
        rw [hch, Option.some.injEq] at hopen hclose
        dsimp only
        rw [if_neg hopen, if_neg hclose, if_neg hopen, if_neg hclose]

end Fetch

theorem drop_of_getElem? {text : List Char} {i : Nat} {ch : Char} (h : text[i]? = some ch) :
    text.drop i = ch :: text.drop (i + 1) := by
  obtain ⟨hlt, rfl⟩ := List.getElem?_eq_some_iff.mp h
  exact List.drop_eq_getElem_cons hlt

theorem written_le {text : List Char} {i j : Nat} {tree : Tree} (h : Written text i tree j) :
    i ≤ j := by
  induction h with
  | done => exact Nat.le_refl _
  | space _ _ _ ih => omega
  | cmd _ _ _ _ ih => omega
  | loop _ _ _ _ ihInner ihNext => omega

/-- Two tables agree on the positions outside an interval. -/
def AgreeOutside (i j : Nat) (before after : Table) : Prop :=
  ∀ p, p < 2 ^ 31 → p < i ∨ j ≤ p → after.lookup (intOfSize p) = before.lookup (intOfSize p)

/-- The scan over the text of a tree leaves the stack as it was, enters the brackets of
this text and makes it code of the tree. -/
theorem prepareLoop_encodes {text : List Char} (fit : BracketsFit text) {i j : Nat} {tree : Tree}
    (written : Written text i tree j) (s : List Int32) (forward backward : Table) :
    ∃ forward' backward',
      prepareLoop i (text.drop i) s forward backward =
        prepareLoop j (text.drop j) s forward' backward' ∧
      AgreeOutside i j forward forward' ∧ AgreeOutside i j backward backward' ∧
      Encodes (fetch text forward' backward') i tree j := by
  induction written generalizing s forward backward with
  | done i => exact ⟨forward, backward, rfl, fun _ _ _ => rfl, fun _ _ _ => rfl, .done i⟩
  | @space i j ch tree here white _ ih =>
    obtain ⟨forward', backward', hloop, hforward, hbackward, hcode⟩ := ih s forward backward
    have hopen : ch ≠ '[' := by rintro rfl; cases white
    have hclose : ch ≠ ']' := by rintro rfl; cases white
    refine ⟨forward', backward', ?_, fun p hp hout => hforward p hp (by omega),
      fun p hp hout => hbackward p hp (by omega), .skip (fetch_space here white) hcode⟩
    rw [drop_of_getElem? here, prepareLoop_other hopen hclose, hloop]
  | @cmd i j ch c rest here white command _ ih =>
    obtain ⟨forward', backward', hloop, hforward, hbackward, hcode⟩ := ih s forward backward
    have hopen : ch ≠ '[' := by rintro rfl; cases command
    have hclose : ch ≠ ']' := by rintro rfl; cases command
    refine ⟨forward', backward', ?_, fun p hp hout => hforward p hp (by omega),
      fun p hp hout => hbackward p hp (by omega), .cmd (fetch_command _ _ here white command) hcode⟩
    rw [drop_of_getElem? here, prepareLoop_other hopen hclose, hloop]
  | @loop i k j body rest opening inner closing next ihInner ihNext =>
    have hik := written_le inner
    have hkj := written_le next
    have hi : i < 2 ^ 31 := fit i (Or.inl opening)
    have hk : k < 2 ^ 31 := fit k (Or.inr closing)
    obtain ⟨f₁, b₁, hinner, hf₁, hb₁, hbody⟩ := ihInner (intOfSize i :: s) forward backward
    obtain ⟨f₂, b₂, hnext, hf₂, hb₂, hrest⟩ := ihNext s
      (f₁.insert (intOfSize i) (intOfSize k)) (b₁.insert (intOfSize k) (intOfSize i))
    -- the later scan keeps the entries of this pair and of the body
    have hforward : ∀ p, p < 2 ^ 31 → p ≠ i → p < k + 1 ∨ j ≤ p →
        f₂.lookup (intOfSize p) = f₁.lookup (intOfSize p) := by
      intro p hp hne hout
      rw [hf₂ p hp hout, Finmap.lookup_insert_of_ne _ fun h => hne (intOfSize_inj hp hi h)]
    have hbackward : ∀ p, p < 2 ^ 31 → p ≠ k → p < k + 1 ∨ j ≤ p →
        b₂.lookup (intOfSize p) = b₁.lookup (intOfSize p) := by
      intro p hp hne hout
      rw [hb₂ p hp hout, Finmap.lookup_insert_of_ne _ fun h => hne (intOfSize_inj hp hk h)]
    refine ⟨f₂, b₂, ?_, ?_, ?_, .loop ?_ (hbody.congr ?_) ?_ hrest⟩
    · rw [drop_of_getElem? opening, prepareLoop_opening, hinner, drop_of_getElem? closing,
        prepareLoop_closing, hnext]
    · intro p hp hout
      rw [hforward p hp (by omega) (by omega), hf₁ p hp (by omega)]
    · intro p hp hout
      rw [hbackward p hp (by omega) (by omega), hb₁ p hp (by omega)]
    · rw [fetch_opening opening, hf₂ i hi (by omega), Finmap.lookup_insert, Option.map_some,
        sizeOfInt_intOfSize hk]
    · intro p hlow hhigh
      exact fetch_congr
        (fun h => hforward p (fit p (Or.inl h)) (by omega) (by omega))
        (fun h => hbackward p (fit p (Or.inr h)) (by omega) (by omega))
    · rw [fetch_closing closing, hb₂ k hk (by omega), Finmap.lookup_insert, Option.map_some,
        sizeOfInt_intOfSize hi]

/-- The jump tables make the whole text code of its tree. -/
theorem prepareJumpTable_encodes {text : List Char} {tree : Tree} (fit : BracketsFit text)
    (h : parse text = some tree) :
    ∃ forward backward, prepareJumpTable text = some (forward, backward) ∧
      Encodes (fetch text forward backward) 0 tree text.length := by
  obtain ⟨forward, backward, hloop, -, -, hcode⟩ :=
    prepareLoop_encodes fit (parse_written h) [] ∅ ∅
  rw [List.drop_zero, List.drop_length, prepareLoop] at hloop
  exact ⟨forward, backward, by rw [prepareJumpTable, hloop], hcode⟩

/-! ## The interpreter goes through the code -/

/-- How the interpreter stands when the code stands there. -/
def stateOf (text : List Char) (forward backward : Table) : Config Tape Fault → State
  | .running ip t => .running ip t.pos t.cells forward backward
  | .ended t => .returned .finished text.length t.pos t.cells
  | .failed e => .returned e.edge e.position e.dp e.cells

/-- The instruction pointer is inside the program or behind its end. -/
def Inside (text : List Char) : Config Tape Fault → Prop
  | .running ip _ => ip ≤ text.length
  | _ => True

section Steps

variable {program : Program} {forward backward : Table} {tree : Tree}

theorem nextIp_of_lt {ip : Nat} (h : ip < program.text.length) : nextIp ip = ip + 1 := by
  have hfits := program.fits
  exact Nat.mod_eq_of_lt (by omega)

/-- In step with the code: the interpreter takes a step when the code does, with the
same output, to where the code goes. -/
theorem step_stateOf (code : Encodes (fetch program.text forward backward) 0 tree program.text.length)
    {c : Config Tape Fault} (inside : Inside program.text c) :
    step program.text (stateOf program.text forward backward c) =
        (LoopCode.step lang (fetch program.text forward backward) c).map
          (fun next => (stateOf program.text forward backward next.1, next.2)) ∧
      ∀ next, LoopCode.step lang (fetch program.text forward backward) c = some next →
        Inside program.text next.1 := by
  cases c with
  | ended t => exact ⟨rfl, fun _ h => nomatch h⟩
  | failed e => exact ⟨rfl, fun _ h => nomatch h⟩
  | running ip t =>
    rcases Nat.lt_or_eq_of_le inside with hlt | rfl
    · have hnext := nextIp_of_lt hlt
      obtain ⟨ch, here⟩ : ∃ ch, program.text[ip]? = some ch :=
        ⟨_, List.getElem?_eq_getElem hlt⟩
      obtain ⟨instr, hinstr⟩ := Option.isSome_iff_exists.mp (code.covers (Nat.zero_le ip) hlt)
      cases hwhite : isWhiteSpace ch with
      | true =>
        rw [LoopCode.step_skip (fetch_space here hwhite)]
        refine ⟨?_, ?_⟩
        · exact (interpret_space forward backward here hwhite _ _).trans (by rw [hnext]; rfl)
        · rintro _ ⟨⟩
          exact hlt
      | false =>
        cases hcommand : commandOf ch with
        | some c =>
          have hstep := interpret_command forward backward here hcommand t
          have hfetch := fetch_command forward backward here hwhite hcommand
          cases hact : act (ip, c) t with
          | ok result =>
            obtain ⟨t', out⟩ := result
            rw [LoopCode.step_act hfetch hact]
            rw [hact, hnext] at hstep
            refine ⟨hstep, ?_⟩
            rintro _ ⟨⟩
            exact hlt
          | error e =>
            rw [LoopCode.step_fail hfetch hact]
            rw [hact] at hstep
            refine ⟨hstep, ?_⟩
            rintro _ ⟨⟩
            trivial
        | none =>
          by_cases hopen : ch = '['
          · subst hopen
            rw [fetch_opening here, Option.map_eq_some_iff] at hinstr
            obtain ⟨target, entry, -⟩ := hinstr
            have hfetch : fetch program.text forward backward ip =
                some (.opening (sizeOfInt target)) := by
              rw [fetch_opening here, entry, Option.map_some]
            have htarget := code.target_lt (Nat.zero_le ip) hlt (Or.inl hfetch)
            rw [LoopCode.step_opening hfetch]
            refine ⟨?_, ?_⟩
            · exact (interpret_opening backward here entry t).trans
                (by rw [hnext, nextIp_of_lt htarget]; rfl)
            · rintro _ ⟨⟩
              show (if lang.guard t then ip + 1 else sizeOfInt target + 1) ≤ program.text.length
              split <;> omega
          · by_cases hclose : ch = ']'
            · subst hclose
              rw [fetch_closing here, Option.map_eq_some_iff] at hinstr
              obtain ⟨target, entry, -⟩ := hinstr
              have hfetch : fetch program.text forward backward ip =
                  some (.closing (sizeOfInt target)) := by
                rw [fetch_closing here, entry, Option.map_some]
              have htarget := code.target_lt (Nat.zero_le ip) hlt (Or.inr hfetch)
              rw [LoopCode.step_closing hfetch]
              refine ⟨?_, ?_⟩
              · exact (interpret_closing forward here entry t).trans
                  (by rw [hnext, nextIp_of_lt htarget]; rfl)
              · rintro _ ⟨⟩
                show (if lang.guard t then sizeOfInt target + 1 else ip + 1) ≤ program.text.length
                split <;> omega
            · rw [fetch, here] at hinstr
              dsimp only at hinstr
              rw [hwhite, if_neg Bool.false_ne_true, hcommand] at hinstr
              dsimp only at hinstr
              rw [if_neg hopen, if_neg hclose] at hinstr
              cases hinstr
    · have here : program.text[program.text.length]? = none := List.getElem?_eq_none (Nat.le_refl _)
      have hfetch : fetch program.text forward backward program.text.length = none := by
        rw [fetch, here]
      rw [LoopCode.step_none hfetch]
      refine ⟨?_, ?_⟩
      · rw [stateOf, step, here]
        rfl
      · rintro _ ⟨⟩
        trivial

theorem fetch_behind : fetch program.text forward backward program.text.length = none := by
  have here : program.text[program.text.length]? = none := List.getElem?_eq_none (Nat.le_refl _)
  rw [fetch, here]

/-- The interpreter gets where the code gets. -/
theorem reaches_iff (tables : prepareJumpTable program.text = some (forward, backward))
    (code : Encodes (fetch program.text forward backward) 0 tree program.text.length)
    {out : List UInt8} {s : State} :
    Reaches program out s ↔
      ∃ c, LoopCode.Reaches lang (fetch program.text forward backward) (.running 0 Tape.blank) out c ∧
        s = stateOf program.text forward backward c := by
  have hstart : start program =
      stateOf program.text forward backward (.running 0 Tape.blank) := by
    rw [start, tables]
    rfl
  constructor
  · intro hboth
    obtain ⟨actions, hrun⟩ := hboth
    rw [hstart] at hrun
    obtain ⟨c, hcode, hs, -⟩ : ∃ c,
        (LoopCode.machine lang (fetch program.text forward backward)).Run
          (.running 0 Tape.blank) actions c out ∧
        s = stateOf program.text forward backward c ∧ Inside program.text c :=
      Machine.Run.lockstep
      (R := fun s c => s = stateOf program.text forward backward c ∧ Inside program.text c)
      ⟨rfl, Nat.zero_le _⟩ (by
        intro t c a u seen hboth hstep
        obtain ⟨rfl, hinside⟩ := hboth
        obtain ⟨heq, hkeep⟩ := step_stateOf code hinside
        replace hstep : step program.text (stateOf program.text forward backward c) =
          some (u, seen) := hstep
        rw [heq, Option.map_eq_some_iff] at hstep
        obtain ⟨⟨d, seen'⟩, hd, ⟨⟩⟩ := hstep
        exact ⟨d, hd, rfl, hkeep _ hd⟩) hrun
    exact ⟨c, ⟨actions, hcode⟩, hs⟩
  · intro hparts
    obtain ⟨c, ⟨actions, hcode⟩, rfl⟩ := hparts
    obtain ⟨s, hrun, rfl, -⟩ : ∃ s, (machine program.text).Run (start program) actions s out ∧
        s = stateOf program.text forward backward c ∧ Inside program.text c :=
      Machine.Run.lockstep
      (R := fun c s => s = stateOf program.text forward backward c ∧ Inside program.text c)
      ⟨hstart, Nat.zero_le _⟩ (by
        intro c t a d seen hboth hstep
        obtain ⟨rfl, hinside⟩ := hboth
        obtain ⟨heq, hkeep⟩ := step_stateOf code hinside
        replace hstep : LoopCode.step lang (fetch program.text forward backward) c =
          some (d, seen) := hstep
        rw [hstep] at heq
        exact ⟨_, heq, rfl, hkeep _ hstep⟩) hcode
    exact ⟨actions, hrun⟩

end Steps

/-! ## The refinement -/

/-- What the interpreter returns with is how the execution ends: behind the program with
the same tape, or at the same command with the same cells, having left the tape. -/
def Agrees : State → End Tape Fault → Prop
  | .returned outcome _ dp memory, .normal t =>
      outcome = .finished ∧ dp = t.pos ∧ memory = t.cells
  | .returned outcome ip dp memory, .failed e =>
      outcome = e.edge ∧ ip = e.position ∧ dp = e.dp ∧ memory = e.cells
  | .running .., _ => False

def Returned : State → Prop
  | .returned .. => True
  | .running .. => False

/-- The interpreter does with the program what the tree means. -/
structure Refines (program : Program) (tree : Tree) : Prop where
  /-- The interpreter returns as an execution of the tree ends, with its output. -/
  returns : ∀ out s, Reaches program out s → Returned s →
    ∃ r, Exec lang tree Tape.blank out r ∧ Agrees s r
  /-- When an execution of the tree ends, the interpreter returns. -/
  ends : ∀ out r, Exec lang tree Tape.blank out r → ∃ s, Reaches program out s ∧ Agrees s r
  /-- What has been put out at some time is the same. -/
  emits : ∀ out, (∃ s, Reaches program out s) ↔ Emits lang tree Tape.blank out
  /-- Before every round `dp` is in `memory`, and at a bracket its table has the entry. -/
  safe : ∀ out ip dp memory forward backward,
    Reaches program out (.running ip dp memory forward backward) →
      (0 ≤ dp ∧ dp < memSize ∧ memory.length = memSize) ∧
      (program.text[ip]? = some '[' → (forward.lookup (intOfSize ip)).isSome = true) ∧
      (program.text[ip]? = some ']' → (backward.lookup (intOfSize ip)).isSome = true)

/-- A balanced program of the seven commands and white space has a syntax tree, which
the interpreter runs, if the brackets stand where an `int` can say. -/
theorem interpreter_refines_tree (program : Program) (supported : Supported program.text)
    (balanced : Balanced program.text) (fit : BracketsFit program.text) :
    ∃ tree, parse program.text = some tree ∧ Refines program tree := by
  obtain ⟨tree, hparse⟩ := parse_isSome supported balanced
  obtain ⟨forward, backward, htables, hcode⟩ := prepareJumpTable_encodes fit hparse
  have hreaches : ∀ {out s}, Reaches program out s ↔ _ := reaches_iff htables hcode
  refine ⟨tree, hparse, ?_, ?_, ?_, ?_⟩
  · intro out s hs hreturned
    obtain ⟨c, hc, rfl⟩ := hreaches.mp hs
    cases c with
    | running ip t => exact hreturned.elim
    | ended t => exact ⟨.normal t, (LoopCode.ends_iff hcode fetch_behind).mp hc, rfl, rfl, rfl⟩
    | failed e =>
      exact ⟨.failed e, (LoopCode.fails_iff hcode fetch_behind).mp hc, rfl, rfl, rfl, rfl⟩
  · intro out r hr
    cases r with
    | normal t =>
      have hc := (LoopCode.ends_iff hcode fetch_behind).mpr hr
      exact ⟨_, hreaches.mpr ⟨_, hc, rfl⟩, rfl, rfl, rfl⟩
    | failed e =>
      have hc := (LoopCode.fails_iff hcode fetch_behind).mpr hr
      exact ⟨_, hreaches.mpr ⟨_, hc, rfl⟩, rfl, rfl, rfl, rfl⟩
  · intro out
    rw [← LoopCode.emits_iff hcode fetch_behind]
    constructor
    · intro hboth
      obtain ⟨s, hs⟩ := hboth
      obtain ⟨c, hc, -⟩ := hreaches.mp hs
      exact ⟨c, hc⟩
    · intro hboth
      obtain ⟨c, hc⟩ := hboth
      exact ⟨_, hreaches.mpr ⟨c, hc, rfl⟩⟩
  · intro out ip dp memory forward' backward' hs
    obtain ⟨c, hc, heq⟩ := hreaches.mp hs
    cases c with
    | ended t => cases heq
    | failed e => cases heq
    | running ip' t =>
      cases heq
      refine ⟨⟨Int.natCast_nonneg _, by exact_mod_cast t.inside, t.size⟩, ?_, ?_⟩
      · intro here
        have hlt := (List.getElem?_eq_some_iff.mp here).1
        have hsome := hcode.covers (Nat.zero_le ip) hlt
        rwa [fetch_opening here, Option.isSome_map] at hsome
      · intro here
        have hlt := (List.getElem?_eq_some_iff.mp here).1
        have hsome := hcode.covers (Nat.zero_le ip) hlt
        rwa [fetch_closing here, Option.isSome_map] at hsome

/-- `+[>+<-]>.` -/
def moveOnce : Program where
  text := ['+', '[', '>', '+', '<', '-', ']', '>', '.']
  fits := by decide

theorem interpreter_refines_tree_moveOnce :
    ∃ tree, parse moveOnce.text = some tree ∧ Refines moveOnce tree :=
  interpreter_refines_tree moveOnce (by decide) (by decide) (bracketsFit_of_length (by decide))

/-! ## Brackets behind the range of `int` -/

/-- `[]+` after so many blanks. -/
def afterBlanks (n : Nat) : List Char := List.replicate n ' ' ++ ['[', ']', '+']

section AfterBlanks

variable {n : Nat}

theorem afterBlanks_length : (afterBlanks n).length = n + 3 := by
  rw [afterBlanks, List.length_append, List.length_replicate]
  rfl

theorem parseFrom_blanks {i : Nat} {rest : List Char} {tree : Tree} {trees : List Tree}
    (h : parseFrom (i + n) rest = some (tree :: trees)) :
    parseFrom i (List.replicate n ' ' ++ rest) = some (tree :: trees) := by
  induction n generalizing i with
  | zero => exact h
  | succ n ih =>
    rw [List.replicate_succ, List.cons_append, parseFrom, ih (by rwa [Nat.add_right_comm])]
    rfl

theorem parse_afterBlanks :
    parse (afterBlanks n) = some (.loop .done (.cmd (n + 2, .increment) .done)) := by
  rw [parse, afterBlanks, parseFrom_blanks (by rw [Nat.zero_add]; rfl)]

theorem prepareLoop_blanks {i : Nat} {rest : List Char} :
    prepareLoop i (List.replicate n ' ' ++ rest) [] ∅ ∅ = prepareLoop (i + n) rest [] ∅ ∅ := by
  induction n generalizing i with
  | zero => rfl
  | succ n ih =>
    rw [List.replicate_succ, List.cons_append, prepareLoop_other (by decide) (by decide), ih,
      Nat.add_right_comm]
    rfl

theorem prepareJumpTable_afterBlanks :
    prepareJumpTable (afterBlanks n) =
      some ((∅ : Table).insert (intOfSize n) (intOfSize (n + 1)),
        (∅ : Table).insert (intOfSize (n + 1)) (intOfSize n)) := by
  rw [prepareJumpTable, afterBlanks, prepareLoop_blanks, Nat.zero_add, prepareLoop_opening,
    prepareLoop_closing, prepareLoop_other (by decide) (by decide)]
  rfl

theorem supported_afterBlanks : Supported (afterBlanks n) := by
  intro ch hch
  rw [afterBlanks, List.mem_append] at hch
  rcases hch with hch | hch
  · rw [List.eq_of_mem_replicate hch]
    exact Or.inl rfl
  · have htail : Supported ['[', ']', '+'] := by decide
    exact htail ch hch

theorem balanced_blank {text : List Char} (h : Balanced text) : Balanced (' ' :: text) where
  prefixes := by
    intro before hbefore
    rcases List.prefix_cons_iff.mp hbefore with rfl | ⟨before, rfl, hrest⟩
    · exact Nat.le_refl _
    · rw [List.count_cons_of_ne (by decide), List.count_cons_of_ne (by decide)]
      exact h.prefixes before hrest
  whole := by
    rw [List.count_cons_of_ne (by decide), List.count_cons_of_ne (by decide)]
    exact h.whole

theorem balanced_afterBlanks : Balanced (afterBlanks n) := by
  induction n with
  | zero => decide
  | succ n ih => exact balanced_blank ih

/-- The interpreter goes through the blanks. -/
theorem blanks_run (hn : n < 2 ^ 64) {k : Nat} (hk : k ≤ n) (dp : Int) (memory : List UInt8)
    (forward backward : Table) :
    (machine (afterBlanks n)).Run (.running 0 dp memory forward backward) (List.replicate k ())
      (.running k dp memory forward backward) [] := by
  induction k with
  | zero => exact Machine.Run.nil _
  | succ k ih =>
    rw [List.replicate_succ']
    have here : (afterBlanks n)[k]? = some ' ' := by
      rw [afterBlanks, List.getElem?_append_left (by rw [List.length_replicate]; omega),
        List.getElem?_replicate_of_lt (by omega)]
    have hnext : nextIp k = k + 1 := Nat.mod_eq_of_lt (by omega)
    have hstep := interpret_space forward backward here rfl dp memory
    rw [hnext] at hstep
    exact (ih (by omega)).append (Machine.Run.single hstep)

theorem current_blank : Tape.blank.current = 0 := List.getElem_replicate _

theorem guard_blank : lang.guard Tape.blank = false := by
  show (Tape.blank.current != 0) = false
  rw [current_blank]
  rfl

/-- Executed as a tree the program leaves 1 in the first cell. -/
theorem exec_afterBlanks :
    Exec lang (.loop .done (.cmd (n + 2, .increment) .done)) Tape.blank []
      (.normal (Tape.blank.write 1)) := by
  have hact : lang.act (n + 2, .increment) Tape.blank = .ok (Tape.blank.write 1, []) := by
    show Except.ok (Tape.blank.write (Tape.blank.current + 1), []) = _
    rw [current_blank]
    rfl
  exact .leave guard_blank (.cmd hact (.done _))

/-- Where the entry of the opening bracket points behind the program, the interpreter
never gets to `+`. -/
theorem afterBlanks_run {forward backward : Table}
    (entry : forward.lookup (intOfSize n) = some (intOfSize (n + 1))) (fits : n + 3 < 2 ^ 64)
    (behind : n + 3 ≤ nextIp (sizeOfInt (intOfSize (n + 1)))) :
    (machine (afterBlanks n)).Run (.running 0 0 initialMemory forward backward)
      (List.replicate n () ++ ([()] ++ [()]))
      (.returned .finished (nextIp (sizeOfInt (intOfSize (n + 1)))) 0 initialMemory) [] := by
  have here : (afterBlanks n)[n]? = some '[' := by
    rw [afterBlanks, List.getElem?_append_right (by rw [List.length_replicate]),
      List.length_replicate, Nat.sub_self]
    rfl
  have hopening := interpret_opening backward here entry Tape.blank
  rw [guard_blank, if_neg Bool.false_ne_true] at hopening
  have hjump : (machine (afterBlanks n)).Run (.running n 0 initialMemory forward backward) [()]
      (.running (nextIp (sizeOfInt (intOfSize (n + 1)))) 0 initialMemory forward backward) [] :=
    Machine.Run.single hopening
  have hlast : step (afterBlanks n)
      (.running (nextIp (sizeOfInt (intOfSize (n + 1)))) 0 initialMemory forward backward) =
      some (.returned .finished (nextIp (sizeOfInt (intOfSize (n + 1)))) 0 initialMemory, []) := by
    rw [step, List.getElem?_eq_none (by rw [afterBlanks_length]; exact behind)]
  have hreturn : (machine (afterBlanks n)).Run
      (.running (nextIp (sizeOfInt (intOfSize (n + 1)))) 0 initialMemory forward backward) [()]
      (.returned .finished (nextIp (sizeOfInt (intOfSize (n + 1)))) 0 initialMemory) [] :=
    Machine.Run.single hlast
  exact (blanks_run (by omega) (Nat.le_refl n) 0 initialMemory forward backward).append
    (hjump.append hreturn)

variable {program : Program}

theorem afterBlanks_not_refines (text : program.text = afterBlanks n)
    (behind : n + 3 ≤ nextIp (sizeOfInt (intOfSize (n + 1)))) :
    ¬ ∃ tree, parse program.text = some tree ∧ Refines program tree := by
  intro hparts
  obtain ⟨tree, hparse, hrefines⟩ := hparts
  rw [text, parse_afterBlanks, Option.some.injEq] at hparse
  subst hparse
  have hfits := program.fits
  rw [text, afterBlanks_length] at hfits
  have hreaches : Reaches program []
      (.returned .finished (nextIp (sizeOfInt (intOfSize (n + 1)))) 0 initialMemory) := by
    unfold Reaches
    rw [start, text, prepareJumpTable_afterBlanks]
    exact ⟨_, afterBlanks_run (Finmap.lookup_insert _) hfits behind⟩
  obtain ⟨r, hexec, hagrees⟩ := hrefines.returns _ _ hreaches trivial
  obtain ⟨-, rfl⟩ := hexec.deterministic exec_afterBlanks
  obtain ⟨-, -, hmemory⟩ := hagrees
  have hcell : initialMemory[0]? = (Tape.blank.write 1).cells[0]? := by rw [hmemory]
  have hold : initialMemory[0]? = some 0 := List.getElem?_replicate_of_lt (by decide)
  have hnew : (Tape.blank.write 1).cells[0]? = some 1 :=
    List.getElem?_set_self (by rw [Tape.blank.size]; decide)
  rw [hold, hnew] at hcell
  cases hcell

end AfterBlanks

/-- The brackets stand at `2 ^ 31` and `2 ^ 31 + 1`, which are negative as `int` and jump
behind every program as `size_t`. -/
theorem interpreter_leaves_tree_far_brackets :
    ∃ program : Program, program.text = afterBlanks (2 ^ 31) ∧ Supported program.text ∧
      Balanced program.text ∧ ¬ ∃ tree, parse program.text = some tree ∧ Refines program tree := by
  have hfits : (afterBlanks (2 ^ 31)).length < 2 ^ 64 := by
    rw [afterBlanks_length]
    decide
  have hbehind : 2 ^ 31 + 3 ≤ nextIp (sizeOfInt (intOfSize (2 ^ 31 + 1))) := by decide
  exact ⟨⟨afterBlanks (2 ^ 31), hfits⟩, rfl, supported_afterBlanks, balanced_afterBlanks,
    afterBlanks_not_refines rfl hbehind⟩

end CppCodes.Guarantees.InterpreterRefinement
