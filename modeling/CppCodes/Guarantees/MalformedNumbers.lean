import CppCodes.Source.RustCpp.Md4
import Mathlib.Algebra.Order.Ring.Rat

/-!
# Texts that are no numbers

md.cpp and md2.cpp convert with `std::stod` in the end, which throws on a text with no
number in front, so the update is refused as a whole. The other implementations go on
with 0: as a size it deletes the level, and the last id advances all the same.
-/

set_option autoImplicit false

namespace CppCodes.Guarantees.MalformedNumbers

open CppCodes.Library CppCodes.Source.RustCpp

/-- `std::isspace` of the "C" locale. -/
def isSpace (ch : Char) : Bool :=
  ch == ' ' || ch == '\t' || ch == '\n' || ch == '\r' || ch.toNat == 11 || ch.toNat == 12

/-- Digits, a point with a digit behind it, an infinity or a NaN stand here. -/
def startsNumber : List Char → Bool
  | [] => false
  | '.' :: rest => rest.head?.any Char.isDigit
  | ch :: rest => ch.isDigit || ["inf".toList, "nan".toList].contains (((ch :: rest).take 3).map Char.toLower)

/-- Behind white space and a sign there is no number. -/
def hasNumericPrefix (t : String) : Bool :=
  match t.toList.dropWhile isSpace with
  | '+' :: rest => startsNumber rest
  | '-' :: rest => startsNumber rest
  | rest => startsNumber rest

example : (["101", " -.5e3", "+Infinity", "0x1p3", "", "abc", "+", ".", "-e5"].map hasNumericPrefix) =
    [true, true, true, true, false, false, false, false, false] := by decide

variable {F : Type} [LinearOrder F] [Zero F]

/-- What the documentation says of a text that has no number in front. -/
structure Documented (n : Numbers F) : Prop where
  /-- Throws `std::invalid_argument`. -/
  stod : ∀ t, hasNumericPrefix t = false → n.stod t = none
  strtod : ∀ t, hasNumericPrefix t = false → n.strtod t = 0
  /-- Yields `std::errc::invalid_argument`. -/
  fromChars : ∀ t, hasNumericPrefix t = false → n.fromChars t = none
  parseF64 : ∀ t, hasNumericPrefix t = false → n.parseF64 t = none
  zero_notNan : n.notNan 0 = true

/-- A price or a size of this side is no number. -/
def BadSide (raw : List RawLevel) : Prop :=
  ∃ level ∈ raw, hasNumericPrefix level.1 = false ∨ hasNumericPrefix level.2 = false

/-- The update passes the sequence check. -/
def PassesCheck (s : Feed F) (upd : DepthUpdate) : Prop :=
  s.lastUpdateId.toInt < upd.u.toInt ∧
    (upd.U.toInt ≤ s.lastUpdateId.toInt + 1 ∨ Linked s.lastUpdateId upd)

/-- The call has failed and left the feed as it was. -/
def Refused {ε : Type} (s : Feed F) (r : Feed F × Except ε Unit) : Prop :=
  r.1 = s ∧ ∃ e, r.2 = .error e

omit [LinearOrder F] [Zero F] in
theorem readLevels_bad {convert : String → Option F} {raw : List RawLevel}
    (refuses : ∀ t, hasNumericPrefix t = false → convert t = none) (bad : BadSide raw) :
    readLevels convert raw = .error .badNumber := by
  induction raw with
  | nil =>
    obtain ⟨_, hmem, -⟩ := bad
    cases hmem
  | cons level rest ih =>
    obtain ⟨p, size⟩ := level
    rw [readLevels]
    cases hp : convert p with
    | none => rfl
    | some price =>
      cases hsize : convert size with
      | none => rfl
      | some amount =>
        have hrest : BadSide rest := by
          obtain ⟨level, hmem, hbad⟩ := bad
          rcases List.mem_cons.mp hmem with rfl | hmem
          · rcases hbad with hbad | hbad
            · rw [refuses _ hbad] at hp
              cases hp
            · rw [refuses _ hbad] at hsize
              cases hsize
          · exact ⟨level, hmem, hbad⟩
        dsimp only
        rw [ih hrest]

omit [LinearOrder F] [Zero F] in
theorem readLevels_total {convert : String → F} (raw : List RawLevel) :
    ∃ levels, readLevels (fun t => some (convert t)) raw = .ok levels := by
  induction raw with
  | nil => exact ⟨[], rfl⟩
  | cons level rest ih =>
    obtain ⟨levels, hlevels⟩ := ih
    exact ⟨_, by rw [readLevels, hlevels]⟩

omit [LinearOrder F] in
/-- md.cpp and md2.cpp find the bad side. -/
theorem readSide_bad {impl : Implementation} {n : Numbers F} (doc : Documented n)
    (strict : impl = .md ∨ impl = .md2) {raw : List RawLevel} (bad : BadSide raw) :
    impl.readSide n raw = .error .badNumber := by
  rcases strict with rfl | rfl
  · exact readLevels_bad doc.stod bad
  · refine readLevels_bad (fun t ht => ?_) bad
    unfold Md2.parseDouble
    rw [doc.fromChars t ht]
    exact doc.stod t ht

omit [LinearOrder F] in
/-- The others read every text. -/
theorem readSide_total {impl : Implementation} {n : Numbers F} (md : impl ≠ .md) (md2 : impl ≠ .md2)
    (raw : List RawLevel) : ∃ levels, impl.readSide n raw = .ok levels := by
  cases impl with
  | md => exact absurd rfl md
  | md2 => exact absurd rfl md2
  | md3 => exact readLevels_total raw
  | md5 => exact readLevels_total raw
  | mainRs => exact ⟨_, rfl⟩

theorem applyUpdate_refused_iff {impl : Implementation} {n : Numbers F} (doc : Documented n)
    {s : Feed F} {upd : DepthUpdate} (passes : PassesCheck s upd) (bad : BadSide upd.b ∨ BadSide upd.a) :
    Refused s (impl.applyUpdate n s upd) ↔ impl = .md ∨ impl = .md2 := by
  obtain ⟨hfresh, hbridged⟩ := passes
  have hspec := impl.applyUpdate_spec n s upd
  constructor
  · intro hparts
    obtain ⟨-, e, herror⟩ := hparts
    by_contra hother
    obtain ⟨hmd, hmd2⟩ := not_or.mp hother
    cases hresult : impl.applyUpdate n s upd with
    | mk t result =>
      rw [hresult] at hspec herror
      cases hspec with
      | stale old => cases herror
      | gap _ beyond unlinked =>
        rcases hbridged with hwindow | hlinked
        · omega
        · exact unlinked hlinked
      | unreadable e _ unread =>
        obtain ⟨bids, hbids⟩ := readSide_total (n := n) hmd hmd2 upd.b
        obtain ⟨asks, hasks⟩ := readSide_total (n := n) hmd hmd2 upd.a
        rw [hbids, hasks] at unread
        rcases unread with h | h <;> cases h
      | applied => cases herror
  · intro hstrict
    cases hresult : impl.applyUpdate n s upd with
    | mk t result =>
      rw [hresult] at hspec
      cases hspec with
      | stale old => omega
      | gap => exact ⟨rfl, _, rfl⟩
      | unreadable => exact ⟨rfl, _, rfl⟩
      | applied bidD askD _ _ bids asks =>
        rcases bad with hbad | hbad
        · rw [readSide_bad doc hstrict hbad] at bids
          cases bids
        · rw [readSide_bad doc hstrict hbad] at asks
          cases asks

/-- md4.cpp refuses the update only where simdjson throws. -/
theorem md4_refused_iff {walk : Md4.Walk} {n : Numbers F} {s : Feed F} {upd : DepthUpdate}
    (passes : PassesCheck s upd) :
    Refused s (Md4.applyUpdateJson walk n s upd) ↔ walk upd = none := by
  obtain ⟨hfresh, hbridged⟩ := passes
  obtain ⟨hnext, htoInt⟩ := nextId_eq hfresh
  have hcheck : (upd.U ≤ s.lastUpdateId + 1 ∧ s.lastUpdateId + 1 ≤ upd.u) ∨
      upd.pu.getD 0 = s.lastUpdateId ∧ upd.pu.getD 0 ≠ 0 := by
    rcases hbridged with hwindow | hlinked
    · refine Or.inl ⟨Int64.le_iff_toInt_le.mpr ?_, Int64.le_iff_toInt_le.mpr ?_⟩
      · rw [htoInt]
        exact hwindow
      · rw [htoInt]
        exact hfresh
    · exact Or.inr hlinked
  have hold : ¬ upd.u ≤ s.lastUpdateId := by
    rw [Int64.le_iff_toInt_le]
    omega
  unfold Md4.applyUpdateJson
  dsimp only
  rw [if_neg hold, hnext]
  dsimp only
  rw [if_neg (not_not.mpr hcheck)]
  cases walk upd with
  | none => exact ⟨fun _ => rfl, fun _ => ⟨rfl, _, rfl⟩⟩
  | some levels =>
    constructor
    · intro hparts
      obtain ⟨-, e, herror⟩ := hparts
      cases herror
    · intro h
      cases h

/-- An update that passes the sequence check with a text that is no number is refused,
and the feed left as it was, by md.cpp and md2.cpp and by md4.cpp where simdjson
throws, and by no other implementation. -/
theorem malformed_number_refused_iff (n : Numbers F) (doc : Documented n) (walk : Md4.Walk)
    (s : Feed F) (upd : DepthUpdate) (passes : PassesCheck s upd)
    (bad : BadSide upd.b ∨ BadSide upd.a) :
    (∀ impl : Implementation,
        Refused s (impl.applyUpdate n s upd) ↔ impl = .md ∨ impl = .md2) ∧
      (Refused s (Md4.applyUpdateJson walk n s upd) ↔ walk upd = none) :=
  ⟨fun _ => applyUpdate_refused_iff doc passes bad, md4_refused_iff passes⟩

/-- The texts that occur are 101, 2 and texts that are no numbers. -/
def fewTexts : Numbers ℚ where
  stod t := if hasNumericPrefix t then [("101", 101), ("2", 2)].lookup t else none
  strtod t := if hasNumericPrefix t then ([("101", 101), ("2", 2)].lookup t).getD 0 else 0
  fromChars t := if hasNumericPrefix t then [("101", 101), ("2", 2)].lookup t else none
  parseF64 t := if hasNumericPrefix t then [("101", 101), ("2", 2)].lookup t else none
  notNan _ := true

theorem fewTexts_documented : Documented fewTexts where
  stod t ht := by simp [fewTexts, ht]
  strtod t ht := by simp [fewTexts, ht]
  fromChars t ht := by simp [fewTexts, ht]
  parseF64 t ht := by simp [fewTexts, ht]
  zero_notNan := rfl

/-- A bid at 101, after the update 1. -/
def oneBid : Feed ℚ where
  lastUpdateId := 1
  book := { bids := SortedMap.empty.insert 101 2 }

/-- The size of the level is `abc`. -/
def badSize : DepthUpdate where
  U := 2
  u := 2
  b := [("101", "abc")]

/-- simdjson hands the levels out as they stand. -/
def walkAll : Md4.Walk := fun upd => some (upd.b, upd.a)

theorem badSize_passes : PassesCheck oneBid badSize := ⟨by decide, Or.inl (by decide)⟩

theorem badSize_bad : BadSide badSize.b := ⟨("101", "abc"), List.mem_singleton.mpr rfl, by decide⟩

theorem malformed_number_refused_iff_badSize :
    (∀ impl : Implementation,
        Refused oneBid (impl.applyUpdate fewTexts oneBid badSize) ↔ impl = .md ∨ impl = .md2) ∧
      (Refused oneBid (Md4.applyUpdateJson walkAll fewTexts oneBid badSize) ↔
        walkAll badSize = none) :=
  malformed_number_refused_iff fewTexts fewTexts_documented walkAll oneBid badSize badSize_passes
    (Or.inl badSize_bad)

/-- The level is deleted and the last id advances. -/
theorem bad_size_deletes_level :
    PassesCheck oneBid badSize ∧ BadSide badSize.b ∧
      (∀ impl ∈ [Implementation.md3, .md5, .mainRs],
        impl.applyUpdate fewTexts oneBid badSize = ({ lastUpdateId := 2, book := {} }, .ok ())) ∧
      Md4.applyUpdateJson walkAll fewTexts oneBid badSize = ({ lastUpdateId := 2, book := {} }, .ok ()) :=
  ⟨badSize_passes, badSize_bad, by decide, by decide⟩

end CppCodes.Guarantees.MalformedNumbers
