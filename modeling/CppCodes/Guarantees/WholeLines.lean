import CppCodes.Source.Mmap.TwoThreads
import Mathlib.Data.List.Basic

/-!
# When the reader prints whole lines

`length` is declared as the number of bytes that are valid in `data`, but it is stored
behind the bytes, and the reader loads it before them. The bytes of the next line can come
in between. If they do not, or the next line is as long, what the reader prints is a line.
-/

set_option autoImplicit false

namespace CppCodes.Guarantees.WholeLines

open CppCodes.Library CppCodes.Source.Mmap

/-- The lines that are or have been in `data`: of an empty line nothing is, before its
terminator. -/
def heldLines (s : State) : List Bytes :=
  match s.writer with
  | .copied 0 => s.taken.dropLast.map cut
  | _ => s.taken.map cut

/-- The reader copies as many bytes as the line has that is in `data`. -/
def LengthFits (s : State) (a : Action) : Prop :=
  ∀ len, a = .readerCopy → s.reader = .copying len →
    (heldLines s).getLast?.map List.length = some len

/-- The lines of the input up to `quit`. -/
def lines (input : List Bytes) : List Bytes := input.takeWhile fun line => line ≠ quit

theorem cut_length_lt (line : Bytes) : (cut line).length < payloadSize := by
  simp only [cut, List.length_take, payloadSize]
  omega

/-! ## The writer -/

/-- What the writer's local variables and the region say about the lines it has read. -/
structure WriterOk (input : List Bytes) (s : State) : Prop where
  begun : s.taken <+: lines input
  ahead : s.writer ≠ .stopped → lines input = s.taken ++ lines s.input
  size : s.region.data.length = payloadSize
  writer : ∀ len, s.writer = .copied len ∨ s.writer = .terminated len →
    ∃ before line, s.taken = before ++ [line] ∧ (cut line).length = len
  held : ∀ line, (heldLines s).getLast? = some line → s.region.data.take line.length = line

/-- A step of the writer leaves the lines in `data`, or adds one. -/
structure Writes (s u : State) : Prop where
  lines : heldLines u = heldLines s ∨ ∃ line, heldLines u = heldLines s ++ [line]
  reader : u.reader = s.reader
  lastLen : u.lastLen = s.lastLen

variable {input : List Bytes} {s u : State} {seen : List Event}

theorem writerOk_start (input : List Bytes) : WriterOk input { input } where
  begun := List.nil_prefix
  ahead _ := rfl
  size := List.length_replicate
  writer len h := by simp at h
  held line h := by simp [heldLines] at h

theorem WriterOk.of_reader (h : WriterOk input s) {reader : ReaderPc} {lastLen : Nat} :
    WriterOk input { s with reader, lastLen } :=
  ⟨h.begun, h.ahead, h.size, h.writer, h.held⟩

theorem take_set_of_le {data : Bytes} {n len : Nat} (h : n ≤ len) :
    (data.set len 0).take n = data.take n := by
  rw [List.take_set, List.set_eq_of_length_le]
  rw [List.length_take]
  omega

theorem heldLines_of_ne (h : ∀ len, s.writer ≠ .copied len) : heldLines s = s.taken.map cut := by
  unfold heldLines
  split
  · next hcopied => exact absurd hcopied (h 0)
  · rfl

/-- Between two lines the ones in `data` are those that have been read. -/
theorem heldLines_same (hs : ∀ len, s.writer ≠ .copied len) (hu : ∀ len, u.writer ≠ .copied len)
    (htaken : u.taken = s.taken) : heldLines u = heldLines s := by
  rw [heldLines_of_ne hs, heldLines_of_ne hu, htaken]

theorem heldLines_copied {len : Nat} {before : List Bytes} {line : Bytes}
    (hwriter : s.writer = .copied len) (htaken : s.taken = before ++ [line]) :
    heldLines s = if len = 0 then before.map cut else before.map cut ++ [cut line] := by
  unfold heldLines
  rw [hwriter, htaken]
  cases len with
  | zero => simp
  | succ len => simp

theorem writerCopy_step (h : WriterOk input s)
    (hstep : machine.step s .writerCopy = some (u, seen)) :
    WriterOk input u ∧ Writes s u ∧ ∃ line, seen = [.copied line] ∧ u.taken = s.taken ++ [line] := by
  simp only [machine] at hstep
  split at hstep
  · next line rest hwriter hinput =>
    split at hstep
    · cases hstep
    · next hquit =>
      cases hstep
      have hbefore : heldLines s = s.taken.map cut := heldLines_of_ne (by simp [hwriter])
      have hafter := heldLines_copied
        (s := { s with
          region := { s.region with data := cut line ++ s.region.data.drop (cut line).length }
          taken := s.taken ++ [line]
          input := rest
          writer := .copied (cut line).length }) rfl rfl
      rw [← hbefore] at hafter
      have hahead : lines input = (s.taken ++ [line]) ++ lines rest := by
        rw [h.ahead (by simp [hwriter]), hinput, lines,
          List.takeWhile_cons_of_pos (by simpa using hquit)]
        simp [lines]
      refine ⟨⟨⟨lines rest, hahead.symm⟩, fun _ => hahead, ?_, ?_, ?_⟩, ?_, line, rfl, rfl⟩
      · have hlt := cut_length_lt line
        simp only [List.length_append, List.length_drop, h.size]
        omega
      · intro len hlen
        simp only [WriterPc.copied.injEq, reduceCtorEq, or_false] at hlen
        exact ⟨s.taken, line, rfl, hlen⟩
      · intro held hlast
        rw [hafter] at hlast
        by_cases hempty : (cut line).length = 0
        · rw [if_pos hempty] at hlast
          have hnil : cut line = [] := List.length_eq_zero_iff.mp hempty
          simpa [hnil] using h.held held hlast
        · rw [if_neg hempty, List.getLast?_concat] at hlast
          cases hlast
          exact List.take_left
      · refine ⟨?_, rfl, rfl⟩
        by_cases hempty : (cut line).length = 0
        · exact Or.inl (hafter.trans (if_pos hempty))
        · exact Or.inr ⟨cut line, hafter.trans (if_neg hempty)⟩
  · cases hstep

theorem writerTerminate_step (h : WriterOk input s)
    (hstep : machine.step s .writerTerminate = some (u, seen)) :
    WriterOk input u ∧ Writes s u ∧ seen = [] ∧ u.taken = s.taken := by
  simp only [machine] at hstep
  split at hstep
  · next len hwriter =>
    cases hstep
    obtain ⟨before, line, htaken, hlen⟩ := h.writer len (Or.inl hwriter)
    have hbefore := heldLines_copied hwriter htaken
    have hafter : heldLines { s with
        region := { s.region with data := s.region.data.set len 0 }
        writer := .terminated len } = before.map cut ++ [cut line] := by
      rw [heldLines_of_ne (by simp)]
      simp [htaken]
    refine ⟨⟨h.begun, fun _ => h.ahead (by simp [hwriter]), ?_, ?_, ?_⟩, ?_, rfl, rfl⟩
    · simpa using h.size
    · intro n hn
      simp only [reduceCtorEq, WriterPc.terminated.injEq, false_or] at hn
      exact ⟨before, line, htaken, hlen.trans hn⟩
    · intro held hlast
      rw [hafter, List.getLast?_concat] at hlast
      cases hlast
      rw [hlen, take_set_of_le (Nat.le_refl len)]
      by_cases hempty : len = 0
      · rw [hempty] at hlen ⊢
        simpa using (List.length_eq_zero_iff.mp hlen).symm
      · rw [if_neg hempty] at hbefore
        have hline := h.held (cut line) (by rw [hbefore, List.getLast?_concat])
        rwa [hlen] at hline
    · refine ⟨?_, rfl, rfl⟩
      by_cases hempty : len = 0
      · rw [if_pos hempty] at hbefore
        exact Or.inr ⟨cut line, by rw [hafter, hbefore]⟩
      · rw [if_neg hempty] at hbefore
        exact Or.inl (hafter.trans hbefore.symm)
  · cases hstep

theorem writerStoreLength_step (h : WriterOk input s)
    (hstep : machine.step s .writerStoreLength = some (u, seen)) :
    WriterOk input u ∧ Writes s u ∧ seen = [] ∧ u.taken = s.taken := by
  simp only [machine] at hstep
  split at hstep
  · next len hwriter =>
    cases hstep
    have hsame := heldLines_same (s := s)
      (u := { s with region := { s.region with length := len }, writer := .reading })
      (by simp [hwriter]) (by simp) rfl
    refine ⟨⟨h.begun, fun _ => h.ahead (by simp [hwriter]), h.size, by simp, ?_⟩,
      ⟨Or.inl hsame, rfl, rfl⟩, rfl, rfl⟩
    rw [hsame]
    exact h.held
  · cases hstep

theorem writerStoreDone_step (h : WriterOk input s)
    (hstep : machine.step s .writerStoreDone = some (u, seen)) :
    WriterOk input u ∧ Writes s u ∧ seen = [] ∧ u.taken = s.taken := by
  have hstop : s.writer = .reading ∧
      (∃ rest, u = { s with
        region := { s.region with done := true }, input := rest, writer := .stopped }) ∧
      seen = [] := by
    simp only [machine] at hstep
    split at hstep
    · next hwriter hinput =>
      cases hstep
      exact ⟨hwriter, ⟨s.input, rfl⟩, rfl⟩
    · next line rest hwriter hinput =>
      split at hstep
      · cases hstep
        exact ⟨hwriter, ⟨rest, rfl⟩, rfl⟩
      · cases hstep
    · cases hstep
  obtain ⟨hwriter, ⟨rest, rfl⟩, rfl⟩ := hstop
  have hsame := heldLines_same (s := s)
    (u := { s with region := { s.region with done := true }, input := rest, writer := .stopped })
    (by simp [hwriter]) (by simp) rfl
  refine ⟨⟨h.begun, by simp, h.size, by simp, ?_⟩, ⟨Or.inl hsame, rfl, rfl⟩, rfl, rfl⟩
  rw [hsame]
  exact h.held

/-! ## Both -/

/-- The reader has printed lines in order, and of the one in `data` nothing, or its length
was the last one. -/
structure Inv (input : List Bytes) (s : State) (trace : List Event) : Prop where
  writer : WriterOk input s
  copied : copiedLines trace = s.taken
  reader : ∀ len, s.reader = .copying len → len ≠ s.lastLen
  printed : (printedTexts trace).Sublist (heldLines s).dropLast ∨
    (printedTexts trace).Sublist (heldLines s) ∧
      (heldLines s).getLast?.map List.length = some s.lastLen

variable {trace : List Event}

theorem heldLines_sublist (s : State) : (heldLines s).Sublist (s.taken.map cut) := by
  unfold heldLines
  split
  · exact (List.dropLast_sublist s.taken).map cut
  · exact List.Sublist.refl _

theorem Writes.printed (h : Writes s u) {texts : List Bytes}
    (hprinted : texts.Sublist (heldLines s).dropLast ∨ texts.Sublist (heldLines s) ∧
      (heldLines s).getLast?.map List.length = some s.lastLen) :
    texts.Sublist (heldLines u).dropLast ∨ texts.Sublist (heldLines u) ∧
      (heldLines u).getLast?.map List.length = some u.lastLen := by
  rcases h.lines with hsame | ⟨line, hadd⟩
  · rwa [hsame, h.lastLen]
  · rw [hadd, List.dropLast_concat]
    rcases hprinted with hbefore | ⟨hall, -⟩
    · exact Or.inl (hbefore.trans (List.dropLast_sublist _))
    · exact Or.inl hall

theorem Inv.writerStep (h : Inv input s trace) (hwriter : WriterOk input u) (hwrites : Writes s u)
    (hcopied : copiedLines (trace ++ seen) = u.taken)
    (hprinted : printedTexts (trace ++ seen) = printedTexts trace) : Inv input u (trace ++ seen) where
  writer := hwriter
  copied := hcopied
  reader := by
    rw [hwrites.reader, hwrites.lastLen]
    exact h.reader
  printed := by
    rw [hprinted]
    exact hwrites.printed h.printed

/-- A step of the writer that reads no line. -/
theorem Inv.silent (h : Inv input s trace)
    (hstep : WriterOk input u ∧ Writes s u ∧ seen = [] ∧ u.taken = s.taken) :
    Inv input u (trace ++ seen) := by
  obtain ⟨hwriter, hwrites, rfl, htaken⟩ := hstep
  apply h.writerStep hwriter hwrites
  · rw [htaken, List.append_nil, h.copied]
  · rw [List.append_nil]

/-- The text is the line in `data`, and it has not been printed before. -/
theorem readerCopy_step (h : Inv input s trace) (hfits : LengthFits s .readerCopy)
    (hstep : machine.step s .readerCopy = some (u, seen)) : Inv input u (trace ++ seen) := by
  simp only [machine] at hstep
  split at hstep
  · next len hreader =>
    cases hstep
    obtain ⟨line, hlast, hlen⟩ := Option.map_eq_some_iff.mp (hfits len rfl hreader)
    have htext : s.region.data.take len = line := by
      rw [← hlen]
      exact h.writer.held line hlast
    have hprinted : printedTexts (trace ++ [.printed (s.region.data.take len)]) =
        printedTexts trace ++ [line] := by
      simp [printedTexts, htext]
    refine ⟨h.writer.of_reader, ?_, by simp, Or.inr ⟨?_, hfits len rfl hreader⟩⟩
    · have hcopied := h.copied
      simpa [copiedLines] using hcopied
    · rw [hprinted]
      rcases h.printed with hbefore | ⟨-, hsame⟩
      · have hheld := hbefore.append (List.Sublist.refl [line])
        rwa [List.dropLast_append_getLast? line hlast] at hheld
      · rw [hlast, Option.map_some, hlen, Option.some.injEq] at hsame
        exact absurd hsame (h.reader len hreader)
  · cases hstep

theorem step_keeps {a : Action} (h : Inv input s trace) (hfits : LengthFits s a)
    (hstep : machine.step s a = some (u, seen)) : Inv input u (trace ++ seen) := by
  have hcopied := h.copied
  cases a with
  | writerCopy =>
    obtain ⟨hwriter, hwrites, line, rfl, htaken⟩ := writerCopy_step h.writer hstep
    apply h.writerStep hwriter hwrites
    · rw [htaken, ← hcopied]
      simp [copiedLines]
    · simp [printedTexts]
  | writerTerminate => exact h.silent (writerTerminate_step h.writer hstep)
  | writerStoreLength => exact h.silent (writerStoreLength_step h.writer hstep)
  | writerStoreDone => exact h.silent (writerStoreDone_step h.writer hstep)
  | readerCopy => exact readerCopy_step h hfits hstep
  | readerLoadLength =>
    simp only [machine] at hstep
    split at hstep
    · split at hstep
      · next hlen =>
        cases hstep
        rw [List.append_nil]
        refine ⟨h.writer.of_reader, hcopied, ?_, h.printed⟩
        intro len hcopying
        cases hcopying
        exact hlen.2
      · cases hstep
        rw [List.append_nil]
        exact ⟨h.writer.of_reader, hcopied, by simp, h.printed⟩
    · cases hstep
  | readerLoadDone =>
    simp only [machine] at hstep
    split at hstep
    · cases hstep
      rw [List.append_nil]
      refine ⟨h.writer.of_reader, hcopied, ?_, h.printed⟩
      intro len hcopying
      split at hcopying <;> cases hcopying
    · cases hstep

/-- In every run in which the reader copies as many bytes as the line in `data` has, the
texts it prints are lines the writer has begun to store, cut to what fits, in their order
and none twice. -/
theorem printed_lines {input : List Bytes} {actions : List Action} {s : State}
    {trace : List Event} (h : machine.Run { input } actions s trace)
    (hfits : machine.StepsMeet LengthFits { input } actions) :
    (printedTexts trace).Sublist ((copiedLines trace).map cut) ∧ copiedLines trace <+: lines input := by
  have hstart : Inv input { input } [] :=
    ⟨writerOk_start input, rfl, by simp, Or.inl (List.nil_sublist _)⟩
  have hinv : Inv input s trace :=
    h.invariant_of_steps (I := fun s trace => Inv input s trace) hstart
      (fun hI hcond hstep => step_keeps hI hcond hstep) hfits
  refine ⟨?_, ?_⟩
  · rw [hinv.copied]
    rcases hinv.printed with hbefore | ⟨hall, -⟩
    · exact (hbefore.trans (List.dropLast_sublist _)).trans (heldLines_sublist s)
    · exact hall.trans (heldLines_sublist s)
  · rw [hinv.copied]
    exact hinv.writer.begun

instance (s : State) (a : Action) : Decidable (LengthFits s a) :=
  match a, hs : s.reader with
  | .readerCopy, .copying len =>
      decidable_of_iff ((heldLines s).getLast?.map List.length = some len) (by simp [LengthFits, hs])
  | .readerCopy, .polling | .readerCopy, .checking | .readerCopy, .stopped =>
      isTrue (by simp [LengthFits, hs])
  | .writerCopy, _ | .writerTerminate, _ | .writerStoreLength, _ | .writerStoreDone, _
  | .readerLoadLength, _ | .readerLoadDone, _ => isTrue (by simp [LengthFits])

/-- "abc" and "xyzw" -/
def twoLines : List Bytes := [[97, 98, 99], [120, 121, 122, 119]]

def storeLine : List Action := [.writerCopy, .writerTerminate, .writerStoreLength]

def poll : List Action := [.readerLoadLength, .readerCopy, .readerLoadDone]

theorem printed_lines_in_turn :
    (printedTexts [.copied [97, 98, 99], .printed [97, 98, 99], .copied [120, 121, 122, 119],
      .printed [120, 121, 122, 119]]).Sublist (twoLines.map cut) := by
  obtain ⟨s, hrun⟩ : ∃ s, machine.Run { input := twoLines }
      (storeLine ++ poll ++ storeLine ++ poll) s
      [.copied [97, 98, 99], .printed [97, 98, 99], .copied [120, 121, 122, 119],
        .printed [120, 121, 122, 119]] := Machine.run_of_trace rfl
  exact (printed_lines hrun (by decide)).1

/-- The bytes of the second line come in behind the load of the first length: "xyz" is
printed. -/
theorem torn_line_printed :
    ¬ ∀ input actions s trace, machine.Run { input } actions s trace →
      ∀ text ∈ printedTexts trace, text ∈ (lines input).map cut := by
  intro h
  obtain ⟨s, hrun⟩ : ∃ s, machine.Run { input := twoLines }
      (storeLine ++ [.readerLoadLength, .writerCopy, .readerCopy]) s
      [.copied [97, 98, 99], .copied [120, 121, 122, 119], .printed [120, 121, 122]] :=
    Machine.run_of_trace rfl
  have hline := h twoLines _ s _ hrun [120, 121, 122] (by decide)
  exact absurd hline (by decide)

end CppCodes.Guarantees.WholeLines
