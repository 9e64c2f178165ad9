import CppCodes.Library.LoopCode
import CppCodes.Source.Others.BrainFuck

/-!
# Programs as syntax trees

What a program means, apart from the interpreter: its text is parsed into a tree in
which a pair of brackets is a loop, and the tree is executed on a tape that cannot
be left. The commands carry their positions in the text. `parse` goes from right to
left; `Written` says the same of the text in its own order.
-/

set_option autoImplicit false

namespace CppCodes.Source.Others.BrainFuck

open CppCodes.Library CppCodes.Library.LoopCode

/-- A tape of 30000 cells with a position on it. -/
structure Tape where
  pos : Nat
  cells : List UInt8
  size : cells.length = memSize
  inside : pos < memSize

namespace Tape

/-- All cells zero, at the left end. -/
def blank : Tape where
  pos := 0
  cells := initialMemory
  size := List.length_replicate
  inside := by decide

theorem pos_lt (t : Tape) : t.pos < t.cells.length := t.size ▸ t.inside

def current (t : Tape) : UInt8 := t.cells.get ⟨t.pos, t.pos_lt⟩

def write (t : Tape) (value : UInt8) : Tape where
  pos := t.pos
  cells := t.cells.set t.pos value
  size := by rw [List.length_set, t.size]
  inside := t.inside

def left (t : Tape) : Option Tape :=
  if 0 < t.pos then some { t with pos := t.pos - 1, inside := by have := t.inside; omega }
  else none

def right (t : Tape) : Option Tape :=
  if h : t.pos + 1 < memSize then some { t with pos := t.pos + 1, inside := h } else none

end Tape

inductive Command where
  | increment
  | decrement
  | moveLeft
  | moveRight
  | output
  deriving DecidableEq

/-- A command with its position in the text. -/
abbrev Located := Nat × Command

abbrev Tree := Block Located

/-- The tape was left at this command, with these cells. -/
structure Fault where
  edge : Outcome
  position : Nat
  cells : List UInt8

/-- The position next to the tape that was moved to. -/
def Fault.dp (e : Fault) : Int := if e.edge = .underflow then -1 else memSize

def act : Located → Tape → Except Fault (Tape × List UInt8)
  | (_, .increment), t => .ok (t.write (t.current + 1), [])
  | (_, .decrement), t => .ok (t.write (t.current - 1), [])
  | (at_, .moveLeft), t =>
      match t.left with
      | some t' => .ok (t', [])
      | none => .error ⟨.underflow, at_, t.cells⟩
  | (at_, .moveRight), t =>
      match t.right with
      | some t' => .ok (t', [])
      | none => .error ⟨.overflow, at_, t.cells⟩
  | (_, .output), t => .ok (t, [t.current])

/-- A loop goes on while the current cell is not zero. -/
def lang : Lang Located Tape Fault UInt8 where
  act := act
  guard t := t.current != 0

def commandOf (ch : Char) : Option Command :=
  if ch = '+' then some .increment
  else if ch = '-' then some .decrement
  else if ch = '<' then some .moveLeft
  else if ch = '>' then some .moveRight
  else if ch = '.' then some .output
  else none

/-! ## What the interpreter does on a tape -/

section Interpret

variable {text : List Char} {forward backward : Table}

theorem load_cells (t : Tape) : load t.cells t.pos = some t.current := load_eq t.pos_lt

variable (forward backward) in
theorem interpret_command {ip : Nat} {ch : Char} {c : Command} (here : text[ip]? = some ch)
    (command : commandOf ch = some c) (t : Tape) :
    step text (.running ip t.pos t.cells forward backward) =
      some (match act (ip, c) t with
        | .ok (t', out) => (.running (nextIp ip) t'.pos t'.cells forward backward, out)
        | .error e => (.returned e.edge e.position e.dp e.cells, [])) := by
  have hload := load_cells t
  unfold commandOf at command
  split_ifs at command with h₁ h₂ h₃ h₄ h₅
  · cases command
    rw [step, here, h₁]
    simp [isWhiteSpace, keywords, hload, act, Tape.write, store]
  · cases command
    rw [step, here, h₂]
    simp [isWhiteSpace, keywords, hload, act, Tape.write, store]
  · cases command
    rw [step, here, h₃]
    rcases Nat.eq_zero_or_pos t.pos with hzero | hpos
    · have hleft : t.left = none := by rw [Tape.left, if_neg (by omega)]
      simp [isWhiteSpace, keywords, act, hleft, hzero, Fault.dp]
    · have hleft : t.left = some { t with pos := t.pos - 1, inside := by have := t.inside; omega } := by
        rw [Tape.left, if_pos hpos]
      have hdp : ((t.pos : Int) - 1) = ((t.pos - 1 : Nat) : Int) := by omega
      simp [isWhiteSpace, keywords, act, hleft, hdp]
  · cases command
    rw [step, here, h₄]
    by_cases hin : t.pos + 1 < memSize
    · have hright : t.right = some { t with pos := t.pos + 1, inside := hin } := by
        rw [Tape.right, dif_pos hin]
      have hdp : ¬ (t.pos : Int) + 1 ≥ memSize := by omega
      simp [isWhiteSpace, keywords, act, hright, hdp]
    · have hright : t.right = none := by rw [Tape.right, dif_neg hin]
      have hdp : (t.pos : Int) + 1 = memSize := by
        have := t.inside
        omega
      simp [isWhiteSpace, keywords, act, hright, hdp, Fault.dp]
  · cases command
    rw [step, here, h₅]
    simp [isWhiteSpace, keywords, hload, act]

variable (forward backward) in
theorem interpret_space {ip : Nat} {ch : Char} (here : text[ip]? = some ch)
    (white : isWhiteSpace ch = true) (dp : Int) (memory : List UInt8) :
    step text (.running ip dp memory forward backward) =
      some (.running (nextIp ip) dp memory forward backward, []) := by
  rw [step, here]
  dsimp only
  rw [if_pos white]

variable (backward) in
theorem interpret_opening {ip : Nat} {target : Int32} (here : text[ip]? = some '[')
    (entry : forward.lookup (intOfSize ip) = some target) (t : Tape) :
    step text (.running ip t.pos t.cells forward backward) =
      some (.running (if lang.guard t then nextIp ip else nextIp (sizeOfInt target)) t.pos t.cells
        forward backward, []) := by
  have hload := load_cells t
  rw [step, here]
  by_cases hzero : t.current = 0 <;>
    simp [isWhiteSpace, keywords, hload, lang, hzero, subscript, entry]

variable (forward) in
theorem interpret_closing {ip : Nat} {target : Int32} (here : text[ip]? = some ']')
    (entry : backward.lookup (intOfSize ip) = some target) (t : Tape) :
    step text (.running ip t.pos t.cells forward backward) =
      some (.running (if lang.guard t then nextIp (sizeOfInt target) else nextIp ip) t.pos t.cells
        forward backward, []) := by
  have hload := load_cells t
  rw [step, here]
  by_cases hzero : t.current = 0 <;>
    simp [isWhiteSpace, keywords, hload, lang, hzero, subscript, entry]

end Interpret

/-! ## Parsing -/

/-- The trees that begin here: the one up to the next unmatched closing bracket,
then the one behind it, and so on. -/
def parseFrom : Nat → List Char → Option (List Tree)
  | _, [] => some [.done]
  | i, ch :: rest =>
      match parseFrom (i + 1) rest with
      | none => none
      | some [] => none
      | some (tree :: trees) =>
          if isWhiteSpace ch then some (tree :: trees)
          else
            match commandOf ch with
            | some c => some (.cmd (i, c) tree :: trees)
            | none =>
                if ch = ']' then some (.done :: tree :: trees)
                else if ch = '[' then
                  match trees with
                  | [] => none
                  | next :: trees => some (.loop tree next :: trees)
                else none

def parse (text : List Char) : Option Tree :=
  match parseFrom 0 text with
  | some [tree] => some tree
  | _ => none

/-- Only the seven commands and white space. -/
def Supported (text : List Char) : Prop := ∀ ch ∈ text, isWhiteSpace ch = true ∨ ch ∈ keywords

/-- No prefix closes more brackets than it opens, and the whole opens as many as it
closes. -/
structure Balanced (text : List Char) : Prop where
  prefixes : ∀ before, before <+: text → before.count ']' ≤ before.count '['
  whole : text.count '[' = text.count ']'

instance (text : List Char) : Decidable (Supported text) :=
  List.decidableBAll (fun ch => isWhiteSpace ch = true ∨ ch ∈ keywords) text

theorem balanced_iff_inits {text : List Char} :
    Balanced text ↔ (∀ before ∈ text.inits, before.count ']' ≤ before.count '[') ∧
      text.count '[' = text.count ']' := by
  constructor
  · exact fun h => ⟨fun before hb => h.prefixes before ((List.mem_inits _ _).mp hb), h.whole⟩
  · exact fun h => ⟨fun before hb => h.1 before ((List.mem_inits _ _).mpr hb), h.2⟩

instance (text : List Char) : Decidable (Balanced text) := decidable_of_iff _ balanced_iff_inits.symm

/-- A balanced program has a tree: at every position the brackets still to be closed
are as many as the trees that follow the first. -/
theorem parseFrom_isSome {i : Nat} {text : List Char} (supported : Supported text)
    (suffixes : ∀ after, after <:+ text → after.count '[' ≤ after.count ']') :
    ∃ trees, parseFrom i text = some trees ∧
      trees.length + text.count '[' = text.count ']' + 1 := by
  induction text generalizing i with
  | nil => exact ⟨[.done], rfl, rfl⟩
  | cons ch rest ih =>
    obtain ⟨trees, hparse, hlength⟩ := ih (i := i + 1)
      (fun c hc => supported c (List.mem_cons_of_mem _ hc))
      (fun after hafter => suffixes after (hafter.trans (List.suffix_cons ch rest)))
    have hrest := suffixes rest (List.suffix_cons ch rest)
    have hall := suffixes (ch :: rest) (List.suffix_refl _)
    obtain ⟨tree, trees, rfl⟩ : ∃ tree trees', trees = tree :: trees' := by
      cases trees with
      | nil => rw [List.length_nil] at hlength; omega
      | cons tree trees => exact ⟨tree, trees, rfl⟩
    rw [parseFrom, hparse]
    dsimp only
    by_cases hspace : isWhiteSpace ch = true
    · rw [if_pos hspace]
      refine ⟨_, rfl, ?_⟩
      have hopen : ch ≠ '[' := by rintro rfl; cases hspace
      have hclose : ch ≠ ']' := by rintro rfl; cases hspace
      rwa [List.count_cons_of_ne hopen, List.count_cons_of_ne hclose]
    · rw [if_neg hspace]
      have hkey := (supported ch List.mem_cons_self).resolve_left hspace
      simp only [keywords, List.mem_cons, List.not_mem_nil, or_false] at hkey
      rcases hkey with rfl | rfl | rfl | rfl | rfl | rfl | rfl
      iterate 5 exact ⟨_, rfl, by simpa using hlength⟩
      · cases trees with
        | nil =>
          rw [List.count_cons_self, List.count_cons_of_ne (by decide)] at hall
          rw [List.length_cons, List.length_nil] at hlength
          omega
        | cons next trees =>
          refine ⟨_, rfl, ?_⟩
          rw [List.count_cons_self, List.count_cons_of_ne (by decide)]
          simp only [List.length_cons] at hlength ⊢
          omega
      · refine ⟨_, rfl, ?_⟩
        rw [List.count_cons_self, List.count_cons_of_ne (by decide)]
        simp only [List.length_cons] at hlength ⊢
        omega

theorem parse_isSome {text : List Char} (supported : Supported text) (balanced : Balanced text) :
    ∃ tree, parse text = some tree := by
  obtain ⟨trees, hparse, hlength⟩ := parseFrom_isSome (i := 0) supported (by
    intro after hboth
    obtain ⟨before, rfl⟩ := hboth
    have hbefore := balanced.prefixes before (List.prefix_append before after)
    have hwhole := balanced.whole
    rw [List.count_append, List.count_append] at hwhole
    omega)
  have hone : trees.length = 1 := by
    have hwhole := balanced.whole
    omega
  obtain ⟨tree, rfl⟩ := List.length_eq_one_iff.mp hone
  exact ⟨tree, by rw [parse, hparse]⟩

/-- The text between two positions is that of the tree. -/
inductive Written (text : List Char) : Nat → Tree → Nat → Prop where
  | done (i : Nat) : Written text i .done i
  | space {i j : Nat} {ch : Char} {tree : Tree} (here : text[i]? = some ch)
      (white : isWhiteSpace ch = true) (next : Written text (i + 1) tree j) : Written text i tree j
  | cmd {i j : Nat} {ch : Char} {c : Command} {rest : Tree} (here : text[i]? = some ch)
      (white : isWhiteSpace ch = false) (command : commandOf ch = some c)
      (next : Written text (i + 1) rest j) : Written text i (.cmd (i, c) rest) j
  | loop {i k j : Nat} {body rest : Tree} (opening : text[i]? = some '[')
      (inner : Written text (i + 1) body k) (closing : text[k]? = some ']')
      (next : Written text (k + 1) rest j) : Written text i (.loop body rest) j

/-- Trees written one after the other, with a closing bracket between each two. -/
inductive Stacked (text : List Char) : Nat → List Tree → Prop where
  | last {i : Nat} {tree : Tree} (written : Written text i tree text.length) :
      Stacked text i [tree]
  | more {i k : Nat} {tree next : Tree} {trees : List Tree} (written : Written text i tree k)
      (closing : text[k]? = some ']') (behind : Stacked text (k + 1) (next :: trees)) :
      Stacked text i (tree :: next :: trees)

/-- What is written at the first tree may change, if it ends at the same place. -/
theorem Stacked.replace {text : List Char} {i i' : Nat} {tree tree' : Tree} {trees : List Tree}
    (h : Stacked text i (tree :: trees))
    (first : ∀ k, Written text i tree k → Written text i' tree' k) :
    Stacked text i' (tree' :: trees) := by
  cases h with
  | last written => exact .last (first _ written)
  | more written closing behind => exact .more (first _ written) closing behind

theorem parseFrom_stacked {text rest : List Char} {i : Nat} {trees : List Tree}
    (here : text.drop i = rest) (bound : i ≤ text.length) (h : parseFrom i rest = some trees) :
    Stacked text i trees := by
  induction rest generalizing i trees with
  | nil =>
    have hend : i = text.length := by
      have hle := List.drop_eq_nil_iff.mp here
      omega
    rw [parseFrom, Option.some.injEq] at h
    rw [← h, hend]
    exact .last (.done _)
  | cons ch rest ih =>
    have hlt : i < text.length := by
      have hlen := congrArg List.length here
      rw [List.length_drop, List.length_cons] at hlen
      omega
    have hch : text[i]? = some ch := by
      have hhead := congrArg List.head? here
      rwa [List.head?_drop] at hhead
    have hrest : text.drop (i + 1) = rest := by
      rw [← List.drop_drop, here]
      rfl
    rw [parseFrom] at h
    cases hparse : parseFrom (i + 1) rest with
    | none =>
      rw [hparse] at h
      cases h
    | some behind =>
      have hstack := ih hrest (by omega) hparse
      rw [hparse] at h
      cases behind with
      | nil => cases h
      | cons tree behind =>
        dsimp only at h
        by_cases hspace : isWhiteSpace ch = true
        · rw [if_pos hspace, Option.some.injEq] at h
          rw [← h]
          exact hstack.replace fun k hk => .space hch hspace hk
        · rw [if_neg hspace] at h
          cases hcommand : commandOf ch with
          | some c =>
            rw [hcommand, Option.some.injEq] at h
            rw [← h]
            exact hstack.replace fun k hk =>
              .cmd hch (Bool.eq_false_of_not_eq_true hspace) hcommand hk
          | none =>
            rw [hcommand] at h
            dsimp only at h
            by_cases hclose : ch = ']'
            · rw [if_pos hclose, Option.some.injEq] at h
              rw [← h]
              exact .more (.done i) (hclose ▸ hch) hstack
            · rw [if_neg hclose] at h
              by_cases hopen : ch = '['
              · rw [if_pos hopen] at h
                cases behind with
                | nil => cases h
                | cons next behind =>
                  rw [Option.some.injEq] at h
                  rw [← h]
                  cases hstack with
                  | more written closing after =>
                    exact after.replace fun k hk => .loop (hopen ▸ hch) written closing hk
              · rw [if_neg hopen] at h
                cases h

theorem parse_written {text : List Char} {tree : Tree} (h : parse text = some tree) :
    Written text 0 tree text.length := by
  unfold parse at h
  cases hparse : parseFrom 0 text with
  | none =>
    rw [hparse] at h
    cases h
  | some trees =>
    rw [hparse] at h
    have hstack := parseFrom_stacked rfl (Nat.zero_le _) hparse
    cases hstack with
    | last written =>
      rw [Option.some.injEq] at h
      exact h ▸ written
    | more => cases h

end CppCodes.Source.Others.BrainFuck
