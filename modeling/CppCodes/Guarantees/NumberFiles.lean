import CppCodes.Guarantees.DocumentedIntegers
import CppCodes.Source.Others.NumberFile

/-!
# Files of numbers

A file is read line by line, lines that hold no number are left out, and the iterators go over
what was read from its first number to its last. What they print is a file of the same numbers.
-/

set_option autoImplicit false

namespace CppCodes.Guarantees.NumberFiles

open CppCodes.Library CppCodes.Library.Code CppCodes.Library.LineInput
open CppCodes.Source.Others.Iterator (Bytes convert)
open CppCodes.Source.Others.Iterator hiding Bytes convert
open CppCodes.Source.Others.NumberFile
open CppCodes.Guarantees.DocumentedIntegers

/-! ## Reading -/

theorem splitLines_getline {text line rest : Bytes} (h : getline newline text = some (line, rest)) :
    splitLines newline text = line :: splitLines newline rest ∧ rest.length < text.length := by
  obtain ⟨hline, hended | ⟨hlast, hne, hrest⟩⟩ := getline_spec h
  · rw [hended]
    refine ⟨splitLines_append hline, ?_⟩
    rw [List.length_append, List.length_cons]
    omega
  · rw [hlast, hrest, splitLines_of_notMem hne hline]
    exact ⟨rfl, List.length_pos_iff.mpr hne⟩

/-- The number of a line that holds one. -/
def taken (line : Bytes) : Option Int32 := (convert .checked line).join

theorem readLines_eq {fuel : Nat} {text : Bytes} {data : List Int32} (hfuel : text.length < fuel) :
    readLines .checked fuel text data =
      if ∀ line ∈ splitLines newline text, convert .checked line ≠ none then
        some (data ++ (splitLines newline text).filterMap taken)
      else none := by
  induction fuel generalizing text data with
  | zero => exact absurd hfuel (Nat.not_lt_zero _)
  | succ fuel ih =>
    rw [readLines]
    cases hline : getline newline text with
    | none =>
      rw [getline_eq_none_iff.mp hline]
      simp [splitLines]
    | some next =>
      obtain ⟨line, rest⟩ := next
      obtain ⟨hsplit, hless⟩ := splitLines_getline hline
      have hrest : rest.length < fuel := by omega
      rw [hsplit]
      simp only [List.forall_mem_cons]
      cases hfound : convert .checked line with
      | none => simp
      | some ret =>
        cases ret with
        | none =>
          have htaken : taken line = none := by rw [taken, hfound, Option.join_some]
          simp [ih hrest, htaken]
        | some v =>
          have htaken : taken line = some v := by rw [taken, hfound, Option.join_some]
          simp [ih hrest, htaken]

theorem read_eq (text : Bytes) :
    Solution.read .checked text =
      if ∀ line ∈ splitLines newline text, convert .checked line ≠ none then
        some ⟨(splitLines newline text).filterMap taken⟩
      else none := by
  rw [Solution.read, readLines_eq (Nat.lt_succ_self _), List.nil_append]
  split <;> rfl

/-! ## Printing -/

def printed (data : List Int32) : Bytes := joinLines newline (data.map fun v => signedNumeral v.toInt)

theorem printed_cons (v : Int32) (data : List Int32) :
    printed (v :: data) = signedNumeral v.toInt ++ [newline] ++ printed data := rfl

/-- The iterator is at `i`, and so is the loop. -/
theorem printFrom_eq {s : Solution} {fuel i : Nat} {out : Bytes} (hne : s.data ≠ [])
    (hi : i ≤ s.data.length) (hfuel : s.data.length - i < fuel) :
    s.printFrom fuel (some i) out = .done () (out ++ printed (s.data.drop i)) := by
  have hpos : 0 < s.data.length := List.length_pos_iff.mpr hne
  have hend : s.endIt = some s.data.length := by
    rw [Solution.endIt, if_neg (Nat.ne_of_gt hpos)]
    congr 1
    omega
  induction fuel generalizing i out with
  | zero => exact absurd hfuel (Nat.not_lt_zero _)
  | succ fuel ih =>
    rw [Solution.printFrom, hend]
    by_cases hlast : i = s.data.length
    · subst hlast
      simp [printed, joinLines]
      rfl
    · have hlt : i < s.data.length := by omega
      have hvalue : s.deref (some i) out = .done s.data[i] out := by
        rw [Solution.deref, List.getElem?_eq_getElem hlt]
        rfl
      have hadvance : ∀ out, s.advance (some i) out = .done (some (i + 1)) out := by
        intro out
        rw [Solution.advance, if_pos hlt]
        rfl
      have hprint : modify (fun out => out ++ signedNumeral s.data[i].toInt ++ [newline]) out =
          .done () (out ++ signedNumeral s.data[i].toInt ++ [newline]) := rfl
      rw [if_pos (by simp [hlast]), bind_of_done hvalue, bind_of_done hprint,
        bind_of_done (hadvance _), ih (by omega) (by omega), List.drop_eq_getElem_cons hlt,
        printed_cons, ← List.append_assoc, ← List.append_assoc]

/-- Every number is printed, in order, and the iterators stay inside the vector. -/
theorem print_eq (s : Solution) (out : Bytes) : s.print out = .done () (out ++ printed s.data) := by
  unfold Solution.print Solution.beginIt
  by_cases hempty : s.data = []
  · simp [hempty, Solution.printFrom, Solution.endIt, printed, joinLines]
    rfl
  · have hpos : s.data.length ≠ 0 := by simpa using hempty
    rw [if_neg hpos, printFrom_eq hempty (Nat.zero_le _) (by omega), List.drop_zero]

/-! ## Reading what was printed -/

theorem digit_ne {c d : UInt8} (hc : isDigit c = true) (hd : isDigit d = false) : c ≠ d := by
  rintro rfl
  rw [hc] at hd
  cases hd

/-- What the loop over the digits gets of a number that has been printed. -/
theorem body_signedNumeral (v : Int) :
    body (signedNumeral v) = numeral v.natAbs ∧ isNegative (signedNumeral v) = decide (v < 0) := by
  have hdigits := isDigit_numeral v.natAbs
  obtain ⟨c, rest, hnumeral⟩ : ∃ c rest, numeral v.natAbs = c :: rest :=
    List.exists_cons_of_ne_nil (numeral_ne_nil _)
  have hc : isDigit c = true := hdigits c (by simp [hnumeral])
  have hblank : c ≠ ' '.toUInt8 := digit_ne hc (by decide)
  have hminus : c ≠ '-'.toUInt8 := digit_ne hc (by decide)
  have hplus : c ≠ '+'.toUInt8 := digit_ne hc (by decide)
  have hsign : '-'.toUInt8 ≠ ' '.toUInt8 := by decide
  unfold signedNumeral
  by_cases hneg : v < 0
  · rw [if_pos hneg, hnumeral]
    simp [body, isNegative, unblank, stripSign, hneg, hsign, hplus]
  · rw [if_neg hneg, hnumeral]
    simp [body, isNegative, unblank, stripSign, hneg, hblank, hminus, hplus]

theorem accepted_numeral {n : Nat} (hn : n ≤ 1000000000) : Accepted (numeral n) where
  nonempty := numeral_ne_nil n
  decimal := isDigit_numeral n
  zero hzero := by
    by_cases hne : n = 0
    · rw [hne]
      rfl
    · exact absurd hzero (head?_numeral hne)
  range := by rwa [decimal_numeral]

/-- A number in the range is read back from its numeral. -/
theorem convert_signedNumeral {v : Int32} (hv : v.toInt.natAbs ≤ 1000000000) :
    convert .checked (signedNumeral v.toInt) = some (some v) := by
  obtain ⟨hbody, hneg⟩ := body_signedNumeral v.toInt
  have haccepted := accepted_numeral hv
  have hresult := convert_converted (signedNumeral v.toInt)
  rw [hbody, hneg] at hresult
  generalize convert .checked (signedNumeral v.toInt) = result at hresult
  cases hresult with
  | overflow large =>
    rw [List.takeWhile_eq_self_iff.mpr haccepted.decimal] at large
    exact absurd large (not_overflow_of_le haccepted.range)
  | value w _ denoted =>
    rw [decimal_numeral] at denoted
    have hw : w.toInt = v.toInt := by
      rw [denoted]
      by_cases hlt : v.toInt < 0
      · simp only [hlt, decide_true, Bool.not_true, Bool.false_eq_true, if_false]
        omega
      · simp only [hlt, decide_false, Bool.not_false, if_true]
        omega
    rw [Int32.toInt_inj.mp hw]
  | refused _ notAccepted => exact absurd haccepted notAccepted

/-- What is taken is in the range. -/
theorem taken_range {line : Bytes} {v : Int32} (h : taken line = some v) :
    v.toInt.natAbs ≤ 1000000000 := by
  have hresult := convert_converted line
  rw [taken, Option.join_eq_some_iff] at h
  rw [h] at hresult
  cases hresult with
  | value _ accepted denoted =>
    have hrange := accepted.range
    split at denoted <;> omega

theorem newline_notMem (v : Int) : newline ∉ signedNumeral v := by
  have hdigit : newline ∉ numeral v.natAbs := by
    intro hmem
    exact absurd (isDigit_numeral _ newline hmem) (by decide)
  unfold signedNumeral
  split
  · rw [List.mem_cons, not_or]
    exact ⟨by decide, hdigit⟩
  · exact hdigit

theorem splitLines_printed (data : List Int32) :
    splitLines newline (printed data) = data.map fun v => signedNumeral v.toInt := by
  have hlines : ∀ line ∈ data.map fun v => signedNumeral v.toInt, newline ∉ line := by
    intro line hline
    obtain ⟨v, -, rfl⟩ := List.mem_map.mp hline
    exact newline_notMem _
  have hsplit := @splitLines_joinLines_append _ newline _ [] _ hlines
  simpa [printed, splitLines] using hsplit

theorem read_printed {data : List Int32} (h : ∀ v ∈ data, v.toInt.natAbs ≤ 1000000000) :
    Solution.read .checked (printed data) = some ⟨data⟩ := by
  have hconvert : ∀ v ∈ data, convert .checked (signedNumeral v.toInt) = some (some v) := fun v hv =>
    convert_signedNumeral (h v hv)
  rw [read_eq, splitLines_printed, if_pos, List.filterMap_map]
  · have hsame : data.filterMap (taken ∘ fun v => signedNumeral v.toInt) = data.filterMap some := by
      apply List.filterMap_congr
      intro v hv
      rw [Function.comp_apply, taken, hconvert v hv, Option.join_some]
    rw [hsame, List.filterMap_some]
  · intro line hline
    obtain ⟨v, hv, rfl⟩ := List.mem_map.mp hline
    rw [hconvert v hv]
    exact Option.some_ne_none _

/-- A text is read unless a run of digits in one of its lines overflows. What is read are the numbers
of its lines; the loop over the iterators prints all of them, inside of the vector, and the text
that it prints is read as the same numbers. -/
theorem number_files_round_trip (text : Bytes) :
    (Solution.read .checked text = none ↔
      ∃ line ∈ splitLines newline text, Overflow (digitRun line)) ∧
    ∀ s, Solution.read .checked text = some s →
      s.data = (splitLines newline text).filterMap (fun line => (convert .checked line).join) ∧
      ∃ out, s.print [] = .done () out ∧
        splitLines newline out = s.data.map (fun v => signedNumeral v.toInt) ∧
        Solution.read .checked out = some s := by
  have hread := read_eq text
  constructor
  · rw [hread]
    constructor
    · intro hnone
      split at hnone
      · cases hnone
      · rename_i hsome
        simp only [not_forall, not_not] at hsome
        obtain ⟨line, hline, hconvert⟩ := hsome
        exact ⟨line, hline, (convert_eq_none_iff line).mp hconvert⟩
    · intro hsome
      obtain ⟨line, hline, hover⟩ := hsome
      exact if_neg fun hall => hall line hline ((convert_eq_none_iff line).mpr hover)
  · intro s hs
    rw [hread] at hs
    split at hs
    · cases hs
      have hrange : ∀ v ∈ (splitLines newline text).filterMap taken,
          v.toInt.natAbs ≤ 1000000000 := by
        intro v hv
        obtain ⟨line, -, htaken⟩ := List.mem_filterMap.mp hv
        exact taken_range htaken
      exact ⟨rfl, _, print_eq _ [], splitLines_printed _, read_printed hrange⟩
    · cases hs

end CppCodes.Guarantees.NumberFiles
