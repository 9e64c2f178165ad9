import CppCodes.Source.PerfLab.CommandLine
import Mathlib.Data.List.Forall2

/-!
# What a command line of perf_lab sets

Each argument that is accepted sets one member of `Args`, the last one of a member counts, and the
first argument that is not accepted ends the program. Every `Args` with a thread has a command
line, in any order of its arguments.
-/

set_option autoImplicit false

namespace CppCodes.Guarantees.CommandLines

open CppCodes.Library
open CppCodes.Source.Atoi (Bytes Reading reading signFactor isSpace signOf)
open CppCodes.Source.PerfLab CppCodes.Source.PerfLab.CommandLine

/-! ## Arguments and what they mean -/

inductive Key where
  | mode
  | variant
  | size
  | iters
  | threads
  | chunk
  deriving DecidableEq

def Key.text : Key → Bytes
  | .mode => octets "--mode"
  | .variant => octets "--variant"
  | .size => octets "--size"
  | .iters => octets "--iters"
  | .threads => octets "--threads"
  | .chunk => octets "--chunk"

/-- The argument that gives `v` for `k`. -/
def Key.argument (k : Key) (v : Bytes) : Bytes := k.text ++ '='.toUInt8 :: v

inductive Setting where
  | mode (v : Bytes)
  | variant (v : Bytes)
  | size (n : UInt64)
  | iters (n : UInt64)
  | threads (n : Int32)
  | chunk (n : UInt64)

def Setting.apply (a : Args) : Setting → Args
  | .mode v => { a with mode := v }
  | .variant v => { a with variant := v }
  | .size n => { a with size := n }
  | .iters n => { a with iters := n }
  | .threads n => { a with threads := n }
  | .chunk n => { a with chunk := n }

/-- The argument that a user would write. -/
def Setting.argument : Setting → Bytes
  | .mode v => Key.mode.argument v
  | .variant v => Key.variant.argument v
  | .size n => Key.size.argument (numeral n.toNat)
  | .iters n => Key.iters.argument (numeral n.toNat)
  | .threads n => Key.threads.argument (signedNumeral n.toInt)
  | .chunk n => Key.chunk.argument (numeral n.toNat)

/-- `v` begins with a number that `n` is, modulo `2 ^ 64`. -/
def Unsigned (v : Bytes) (n : UInt64) : Prop :=
  ∃ r : Reading v, r.digits ≠ [] ∧ decimal r.digits < 2 ^ 64 ∧ (n.toNat : Int) = r.value % 2 ^ 64

def Signed (v : Bytes) (n : Int32) : Prop := ∃ r : Reading v, r.digits ≠ [] ∧ n.toInt = r.value

/-- The arguments that are accepted. -/
inductive Sets : Bytes → Setting → Prop
  | mode (v : Bytes) : Sets (Key.mode.argument v) (.mode v)
  | variant (v : Bytes) : Sets (Key.variant.argument v) (.variant v)
  | size {v : Bytes} {n : UInt64} (h : Unsigned v n) : Sets (Key.size.argument v) (.size n)
  | iters {v : Bytes} {n : UInt64} (h : Unsigned v n) : Sets (Key.iters.argument v) (.iters n)
  | threads {v : Bytes} {n : Int32} (h : Signed v n) : Sets (Key.threads.argument v) (.threads n)
  | chunk {v : Bytes} {n : UInt64} (h : Unsigned v n) : Sets (Key.chunk.argument v) (.chunk n)

/-- The numeric members. -/
def Key.numeric : Key → Bool
  | .mode | .variant => false
  | _ => true

/-- The arguments that end the program. -/
inductive Ends (prog : Bytes) : Bytes → Ended → Prop
  | help {s : Bytes} (h : s = octets "-h" ∨ s = octets "--help") : Ends prog s (.exit 0 (usage prog))
  | noDigits {k : Key} {v : Bytes} (hk : k.numeric = true) (r : Reading v) (h : r.digits = []) :
      Ends prog (k.argument v) .invalidArgument
  | tooLarge {k : Key} {v : Bytes} (hk : k.numeric = true) (hthreads : k ≠ .threads) (r : Reading v)
      (hsome : r.digits ≠ []) (h : 2 ^ 64 ≤ decimal r.digits) : Ends prog (k.argument v) .outOfRange
  | noInt {v : Bytes} (r : Reading v) (hsome : r.digits ≠ [])
      (h : r.value < -2 ^ 31 ∨ 2 ^ 31 ≤ r.value) : Ends prog (Key.threads.argument v) .outOfRange
  | unknown {s : Bytes} (hhelp : s ≠ octets "-h" ∧ s ≠ octets "--help")
      (h : ∀ k v, s ≠ Key.argument k v) :
      Ends prog s (.exit 1 (octets "Unknown arg: " ++ s ++ octets "\n" ++ usage prog))

/-! ## Readings -/

theorem takeWhile_front {p : UInt8 → Bool} {front more : Bytes} (hfront : ∀ c ∈ front, p c = true)
    (hmore : ∀ c ∈ more.head?, p c = false) :
    (front ++ more).takeWhile p = front ∧ (front ++ more).dropWhile p = more := by
  rw [List.takeWhile_append_of_pos hfront, List.dropWhile_append_of_pos hfront]
  cases more with
  | nil => simp
  | cons c more =>
    have hc : p c = false := hmore c rfl
    simp [hc]

/-- A text is read in one way only. -/
theorem reading_eq {text : Bytes} (r : Reading text) :
    r.sign = (reading text).sign ∧ r.digits = (reading text).digits := by
  have hspaces := takeWhile_front r.white r.spacesEnd
  rw [← r.split] at hspaces
  have hsign : signOf (r.sign ++ (r.digits ++ r.rest)) = r.sign := by
    rcases r.signed with hnone | hplus | hminus
    · rw [hnone, List.nil_append]
      have hend := r.signEnd hnone
      cases hmore : r.digits ++ r.rest with
      | nil => rfl
      | cons c more =>
        rw [hmore] at hend
        have hc := hend c rfl
        simp [signOf, hc]
    · simp [hplus, signOf]
    · simp [hminus, signOf]
  have hdigits := takeWhile_front r.decimal r.digitsEnd
  unfold reading
  dsimp only
  rw [hspaces.2, hsign, List.drop_left, hdigits.1]
  exact ⟨rfl, rfl⟩

theorem value_eq {text : Bytes} (r : Reading text) : r.value = (reading text).value := by
  rw [Reading.value, Reading.value, (reading_eq r).1, (reading_eq r).2]

/-- A minus negates modulo `2 ^ 64`. -/
theorem toNat_negated (sign : Bytes) {d : Nat} (hd : d < 2 ^ 64) :
    (((if sign = ['-'.toUInt8] then -UInt64.ofNat d else UInt64.ofNat d).toNat : Nat) : Int) =
      signFactor sign * d % 2 ^ 64 := by
  have hcast : (UInt64.ofNat d).toNat = d := UInt64.toNat_ofNat_of_lt' hd
  unfold signFactor
  by_cases hminus : sign = ['-'.toUInt8]
  · rw [if_pos hminus, if_pos hminus, UInt64.toNat_neg, hcast, show UInt64.size = 2 ^ 64 from rfl]
    omega
  · rw [if_neg hminus, if_neg hminus, hcast]
    omega

theorem stoull_ok_iff {v : Bytes} {n : UInt64} : stoull v = .ok n ↔ Unsigned v n := by
  unfold stoull
  dsimp only
  constructor
  · intro h
    split at h
    · cases h
    · rename_i hsome
      split at h
      · rename_i hlt
        cases h
        exact ⟨reading v, hsome, hlt, toNat_negated _ hlt⟩
      · cases h
  · intro h
    obtain ⟨r, hsome, hlt, hn⟩ := h
    rw [(reading_eq r).2] at hsome hlt
    rw [if_neg hsome, if_pos hlt]
    have hsame := toNat_negated (reading v).sign hlt
    rw [value_eq r, Reading.value] at hn
    rw [← hn, Nat.cast_inj] at hsame
    rw [UInt64.toNat_inj.mp hsame]

theorem stoi_ok_iff {v : Bytes} {n : Int32} : stoi v = .ok n ↔ Signed v n := by
  unfold stoi
  dsimp only
  constructor
  · intro h
    split at h
    · cases h
    · rename_i hsome
      split at h
      · rename_i hrange
        cases h
        exact ⟨reading v, hsome, IntArith.toInt_ofInt hrange.1 hrange.2⟩
      · cases h
  · intro h
    obtain ⟨r, hsome, hn⟩ := h
    rw [(reading_eq r).2] at hsome
    rw [value_eq r, Reading.value] at hn
    rw [if_neg hsome, ← hn, if_pos ⟨n.le_toInt, n.toInt_lt⟩, Int32.ofInt_toInt]

theorem stoull_error_iff {v : Bytes} {e : Ended} :
    stoull v = .error e ↔ ∃ r : Reading v, (r.digits = [] ∧ e = .invalidArgument) ∨
      (r.digits ≠ [] ∧ 2 ^ 64 ≤ decimal r.digits ∧ e = .outOfRange) := by
  have hread : (∃ r : Reading v, (r.digits = [] ∧ e = .invalidArgument) ∨
      (r.digits ≠ [] ∧ 2 ^ 64 ≤ decimal r.digits ∧ e = .outOfRange)) ↔
      ((reading v).digits = [] ∧ e = .invalidArgument) ∨
        ((reading v).digits ≠ [] ∧ 2 ^ 64 ≤ decimal (reading v).digits ∧ e = .outOfRange) := by
    constructor
    · intro h
      obtain ⟨r, h⟩ := h
      rwa [(reading_eq r).2] at h
    · exact fun h => ⟨reading v, h⟩
  rw [hread]
  unfold stoull
  dsimp only
  by_cases hnone : (reading v).digits = []
  · simp [hnone, eq_comm]
  · by_cases hlt : decimal (reading v).digits < 2 ^ 64
    · rw [if_neg hnone, if_pos hlt]
      constructor
      · intro h
        cases h
      · intro h
        rcases h with h | ⟨-, h, -⟩
        · exact absurd h.1 hnone
        · exact absurd hlt (Nat.not_lt.mpr h)
    · rw [if_neg hnone, if_neg hlt]
      constructor
      · intro h
        cases h
        exact .inr ⟨hnone, Nat.not_lt.mp hlt, rfl⟩
      · intro h
        rcases h with h | ⟨-, -, rfl⟩
        · exact absurd h.1 hnone
        · rfl

theorem stoi_error_iff {v : Bytes} {e : Ended} :
    stoi v = .error e ↔ ∃ r : Reading v, (r.digits = [] ∧ e = .invalidArgument) ∨
      (r.digits ≠ [] ∧ (r.value < -2 ^ 31 ∨ 2 ^ 31 ≤ r.value) ∧ e = .outOfRange) := by
  have hread : (∃ r : Reading v, (r.digits = [] ∧ e = .invalidArgument) ∨
      (r.digits ≠ [] ∧ (r.value < -2 ^ 31 ∨ 2 ^ 31 ≤ r.value) ∧ e = .outOfRange)) ↔
      ((reading v).digits = [] ∧ e = .invalidArgument) ∨ ((reading v).digits ≠ [] ∧
        ((reading v).value < -2 ^ 31 ∨ 2 ^ 31 ≤ (reading v).value) ∧ e = .outOfRange) := by
    constructor
    · intro h
      obtain ⟨r, h⟩ := h
      rwa [(reading_eq r).2, value_eq r] at h
    · exact fun h => ⟨reading v, h⟩
  rw [hread, Reading.value]
  unfold stoi
  dsimp only
  by_cases hnone : (reading v).digits = []
  · simp [hnone, eq_comm]
  · by_cases hrange : -2 ^ 31 ≤ signFactor (reading v).sign * (decimal (reading v).digits : Int) ∧
        signFactor (reading v).sign * (decimal (reading v).digits : Int) < 2 ^ 31
    · rw [if_neg hnone, if_pos hrange]
      constructor
      · intro h
        cases h
      · intro h
        rcases h with h | ⟨-, h, -⟩
        · exact absurd h.1 hnone
        · omega
    · rw [if_neg hnone, if_neg hrange]
      constructor
      · intro h
        cases h
        exact .inr ⟨hnone, by omega, rfl⟩
      · intro h
        rcases h with h | ⟨-, -, rfl⟩
        · exact absurd h.1 hnone
        · rfl

/-! ## Keys -/

/-- No key has a `=`, and no two are the same. -/
theorem key_noEquals : ∀ k : Key, '='.toUInt8 ∉ k.text := by
  intro k
  cases k <;> decide

theorem key_inj : ∀ k j : Key, k.text = j.text → k = j := by
  intro k j
  cases k <;> cases j <;> decide

theorem argument_inj {k j : Key} {v w : Bytes} (h : k.argument v = j.argument w) : k = j ∧ v = w := by
  have hsplit : ∀ (k : Key) (v : Bytes), (k.argument v).takeWhile (· != '='.toUInt8) = k.text ∧
      (k.argument v).dropWhile (· != '='.toUInt8) = '='.toUInt8 :: v := by
    intro k v
    apply takeWhile_front
    · intro c hc
      have hne : c ≠ '='.toUInt8 := by
        rintro rfl
        exact key_noEquals k hc
      simp [hne]
    · intro c hc
      cases hc
      rfl
  have hk := (hsplit k v).1
  have hv := (hsplit k v).2
  rw [h, (hsplit j w).1] at hk
  rw [h, (hsplit j w).2] at hv
  exact ⟨(key_inj j k hk).symm, (List.cons.inj hv).2.symm⟩

theorem get_eq_some_iff {s v : Bytes} {k : Key} : CommandLine.get s k.text = some v ↔ s = k.argument v := by
  unfold CommandLine.get Key.argument
  constructor
  · intro h
    split at h
    · rename_i hparts
      cases h
      obtain ⟨rest, hrest⟩ := hparts.1
      have hhead := hparts.2.2
      rw [← hrest] at hhead ⊢
      rw [List.getElem?_append_right (Nat.le_refl _), Nat.sub_self] at hhead
      cases rest with
      | nil => cases hhead
      | cons c rest =>
        cases hhead
        rw [List.drop_append, List.drop_of_length_le (Nat.le_succ _)]
        simp
    · cases h
  · rintro rfl
    rw [if_pos]
    · rw [List.drop_append, List.drop_of_length_le (Nat.le_succ _)]
      simp
    · refine ⟨List.prefix_append _ _, ?_, ?_⟩
      · rw [List.length_append, List.length_cons]
        omega
      · rw [List.getElem?_append_right (Nat.le_refl _), Nat.sub_self]
        rfl

theorem get_argument (k j : Key) (v : Bytes) :
    CommandLine.get (k.argument v) j.text = if k = j then some v else none := by
  by_cases hkj : k = j
  · rw [if_pos hkj, ← hkj]
    exact get_eq_some_iff.mpr rfl
  · rw [if_neg hkj]
    cases hget : CommandLine.get (k.argument v) j.text with
    | none => rfl
    | some w => exact absurd (argument_inj (get_eq_some_iff.mp hget)).1 hkj

theorem argument_ne_help (k : Key) (v : Bytes) :
    ¬ (k.argument v = octets "-h" ∨ k.argument v = octets "--help") := by
  have hequals : '='.toUInt8 ∈ k.argument v := by simp [Key.argument]
  intro h
  rcases h with h | h
  · rw [h] at hequals
    exact absurd hequals (by decide)
  · rw [h] at hequals
    exact absurd hequals (by decide)

/-! ## One argument -/

/-- What `parse_args` does with `v` for a key. -/
def Key.read (a : Args) (v : Bytes) : Key → Except Ended Args
  | .mode => .ok { a with mode := v }
  | .variant => .ok { a with variant := v }
  | .size => (stoull v).map fun n => { a with size := n }
  | .iters => (stoull v).map fun n => { a with iters := n }
  | .threads => (stoi v).map fun n => { a with threads := n }
  | .chunk => (stoull v).map fun n => { a with chunk := n }

section Argument

variable {prog : Bytes} {a a' : Args} {s v : Bytes} {e : Ended} {k : Key}

theorem parseArg_argument : parseArg prog a (k.argument v) = k.read a v := by
  have hmode : CommandLine.get (k.argument v) (octets "--mode") = _ := get_argument k .mode v
  have hvariant : CommandLine.get (k.argument v) (octets "--variant") = _ :=
    get_argument k .variant v
  have hsize : CommandLine.get (k.argument v) (octets "--size") = _ := get_argument k .size v
  have hiters : CommandLine.get (k.argument v) (octets "--iters") = _ := get_argument k .iters v
  have hthreads : CommandLine.get (k.argument v) (octets "--threads") = _ :=
    get_argument k .threads v
  have hchunk : CommandLine.get (k.argument v) (octets "--chunk") = _ := get_argument k .chunk v
  unfold parseArg
  rw [if_neg (argument_ne_help k v), hmode, hvariant, hsize, hiters, hthreads, hchunk]
  cases k <;> rfl

theorem parseArg_help (h : s = octets "-h" ∨ s = octets "--help") :
    parseArg prog a s = .error (.exit 0 (usage prog)) := if_pos h

theorem parseArg_unknown (hhelp : ¬ (s = octets "-h" ∨ s = octets "--help"))
    (h : ∀ k v, s ≠ Key.argument k v) : parseArg prog a s =
      .error (.exit 1 (octets "Unknown arg: " ++ s ++ octets "\n" ++ usage prog)) := by
  have hget : ∀ k : Key, CommandLine.get s k.text = none := by
    intro k
    cases hcase : CommandLine.get s k.text with
    | none => rfl
    | some v => exact absurd (get_eq_some_iff.mp hcase) (h k v)
  have hmode : CommandLine.get s (octets "--mode") = none := hget .mode
  have hvariant : CommandLine.get s (octets "--variant") = none := hget .variant
  have hsize : CommandLine.get s (octets "--size") = none := hget .size
  have hiters : CommandLine.get s (octets "--iters") = none := hget .iters
  have hthreads : CommandLine.get s (octets "--threads") = none := hget .threads
  have hchunk : CommandLine.get s (octets "--chunk") = none := hget .chunk
  unfold parseArg
  rw [if_neg hhelp, hmode, hvariant, hsize, hiters, hthreads, hchunk]

theorem map_ok_iff {α β : Type} {f : α → β} {x : Except Ended α} {b : β} :
    x.map f = .ok b ↔ ∃ n, x = .ok n ∧ b = f n := by
  cases x with
  | error e => simp [Except.map]
  | ok n => simp [Except.map, eq_comm]

theorem map_error_iff {α β : Type} {f : α → β} {x : Except Ended α} :
    x.map f = .error e ↔ x = .error e := by
  cases x with
  | error e => simp [Except.map]
  | ok n => simp [Except.map]

theorem read_ok_iff :
    k.read a v = .ok a' ↔ ∃ setting, Sets (k.argument v) setting ∧ a' = setting.apply a := by
  constructor
  · intro h
    cases k with
    | mode =>
      cases h
      exact ⟨_, .mode v, rfl⟩
    | variant =>
      cases h
      exact ⟨_, .variant v, rfl⟩
    | size =>
      obtain ⟨n, hn, rfl⟩ := map_ok_iff.mp h
      exact ⟨_, .size (stoull_ok_iff.mp hn), rfl⟩
    | iters =>
      obtain ⟨n, hn, rfl⟩ := map_ok_iff.mp h
      exact ⟨_, .iters (stoull_ok_iff.mp hn), rfl⟩
    | threads =>
      obtain ⟨n, hn, rfl⟩ := map_ok_iff.mp h
      exact ⟨_, .threads (stoi_ok_iff.mp hn), rfl⟩
    | chunk =>
      obtain ⟨n, hn, rfl⟩ := map_ok_iff.mp h
      exact ⟨_, .chunk (stoull_ok_iff.mp hn), rfl⟩
  · intro h
    obtain ⟨setting, hsets, rfl⟩ := h
    generalize hs : k.argument v = s at hsets
    cases hsets with
    | mode w =>
      obtain ⟨rfl, rfl⟩ := argument_inj hs
      rfl
    | variant w =>
      obtain ⟨rfl, rfl⟩ := argument_inj hs
      rfl
    | size hn =>
      obtain ⟨rfl, rfl⟩ := argument_inj hs
      exact map_ok_iff.mpr ⟨_, stoull_ok_iff.mpr hn, rfl⟩
    | iters hn =>
      obtain ⟨rfl, rfl⟩ := argument_inj hs
      exact map_ok_iff.mpr ⟨_, stoull_ok_iff.mpr hn, rfl⟩
    | threads hn =>
      obtain ⟨rfl, rfl⟩ := argument_inj hs
      exact map_ok_iff.mpr ⟨_, stoi_ok_iff.mpr hn, rfl⟩
    | chunk hn =>
      obtain ⟨rfl, rfl⟩ := argument_inj hs
      exact map_ok_iff.mpr ⟨_, stoull_ok_iff.mpr hn, rfl⟩

theorem read_unsigned (hk : k.numeric = true) (hthreads : k ≠ .threads) :
    k.read a v = .error e ↔ stoull v = .error e := by
  cases k with
  | mode => cases hk
  | variant => cases hk
  | threads => exact absurd rfl hthreads
  | size => exact map_error_iff
  | iters => exact map_error_iff
  | chunk => exact map_error_iff

theorem read_error_iff : k.read a v = .error e ↔ Ends prog (k.argument v) e := by
  constructor
  · intro h
    by_cases hnumeric : k.numeric = true
    · by_cases hthreads : k = .threads
      · rw [hthreads] at h hnumeric ⊢
        obtain ⟨r, ⟨hnone, rfl⟩ | ⟨hsome, hrange, rfl⟩⟩ := stoi_error_iff.mp (map_error_iff.mp h)
        · exact .noDigits hnumeric r hnone
        · exact .noInt r hsome hrange
      · obtain ⟨r, ⟨hnone, rfl⟩ | ⟨hsome, hlarge, rfl⟩⟩ :=
          stoull_error_iff.mp ((read_unsigned hnumeric hthreads).mp h)
        · exact .noDigits hnumeric r hnone
        · exact .tooLarge hnumeric hthreads r hsome hlarge
    · cases k with
      | mode => cases h
      | variant => cases h
      | _ => exact absurd rfl hnumeric
  · intro h
    generalize hs : k.argument v = s at h
    cases h with
    | help hhelp => exact absurd (hs ▸ hhelp) (argument_ne_help k v)
    | unknown hhelp hnone => exact absurd hs.symm (hnone k v)
    | noDigits hk r hnone =>
      obtain ⟨rfl, rfl⟩ := argument_inj hs
      by_cases hthreads : k = .threads
      · rw [hthreads]
        exact map_error_iff.mpr (stoi_error_iff.mpr ⟨r, .inl ⟨hnone, rfl⟩⟩)
      · exact (read_unsigned hk hthreads).mpr (stoull_error_iff.mpr ⟨r, .inl ⟨hnone, rfl⟩⟩)
    | tooLarge hk hthreads r hsome hlarge =>
      obtain ⟨rfl, rfl⟩ := argument_inj hs
      exact (read_unsigned hk hthreads).mpr (stoull_error_iff.mpr ⟨r, .inr ⟨hsome, hlarge, rfl⟩⟩)
    | noInt r hsome hrange =>
      obtain ⟨rfl, rfl⟩ := argument_inj hs
      exact map_error_iff.mpr (stoi_error_iff.mpr ⟨r, .inr ⟨hsome, hrange, rfl⟩⟩)

/-- An argument is an option, a call for help or unknown. -/
theorem argument_cases (s : Bytes) : (s = octets "-h" ∨ s = octets "--help") ∨
    (∃ k v, s = Key.argument k v) ∨
    (¬ (s = octets "-h" ∨ s = octets "--help") ∧ ∀ k v, s ≠ Key.argument k v) := by
  by_cases hhelp : s = octets "-h" ∨ s = octets "--help"
  · exact .inl hhelp
  · by_cases hkey : ∃ k v, s = Key.argument k v
    · exact .inr (.inl hkey)
    · exact .inr (.inr ⟨hhelp, fun k v h => hkey ⟨k, v, h⟩⟩)

theorem sets_argument {setting : Setting} (h : Sets s setting) : ∃ k v, s = Key.argument k v := by
  cases h with
  | mode v => exact ⟨_, _, rfl⟩
  | variant v => exact ⟨_, _, rfl⟩
  | size _ => exact ⟨_, _, rfl⟩
  | iters _ => exact ⟨_, _, rfl⟩
  | threads _ => exact ⟨_, _, rfl⟩
  | chunk _ => exact ⟨_, _, rfl⟩

theorem parseArg_ok_iff :
    parseArg prog a s = .ok a' ↔ ∃ setting, Sets s setting ∧ a' = setting.apply a := by
  rcases argument_cases s with hhelp | ⟨k, v, rfl⟩ | ⟨hhelp, hnone⟩
  · rw [parseArg_help hhelp]
    constructor
    · intro h
      cases h
    · intro h
      obtain ⟨setting, hsets, -⟩ := h
      obtain ⟨k, v, rfl⟩ := sets_argument hsets
      exact absurd hhelp (argument_ne_help k v)
  · rw [parseArg_argument]
    exact read_ok_iff
  · rw [parseArg_unknown hhelp hnone]
    constructor
    · intro h
      cases h
    · intro h
      obtain ⟨setting, hsets, -⟩ := h
      obtain ⟨k, v, hs⟩ := sets_argument hsets
      exact absurd hs (hnone k v)

theorem parseArg_error_iff : parseArg prog a s = .error e ↔ Ends prog s e := by
  rcases argument_cases s with hhelp | ⟨k, v, rfl⟩ | ⟨hhelp, hnone⟩
  · rw [parseArg_help hhelp]
    constructor
    · intro h
      cases h
      exact .help hhelp
    · intro h
      cases h with
      | help _ => rfl
      | unknown hno _ =>
        rcases hhelp with h | h
        · exact absurd h hno.1
        · exact absurd h hno.2
      | noDigits => exact absurd hhelp (argument_ne_help _ _)
      | tooLarge => exact absurd hhelp (argument_ne_help _ _)
      | noInt => exact absurd hhelp (argument_ne_help _ _)
  · rw [parseArg_argument]
    exact read_error_iff
  · rw [parseArg_unknown hhelp hnone]
    constructor
    · intro h
      cases h
      exact .unknown (not_or.mp hhelp) hnone
    · intro h
      cases h with
      | help h => exact absurd h hhelp
      | unknown _ _ => rfl
      | noDigits => exact absurd rfl (hnone _ _)
      | tooLarge => exact absurd rfl (hnone _ _)
      | noInt => exact absurd rfl (hnone _ _)

end Argument

/-! ## The whole line -/

section Line

variable {prog : Bytes} {a a' : Args} {argv : List Bytes} {e : Ended}

theorem foldlM_ok_iff : argv.foldlM (parseArg prog) a = .ok a' ↔
    ∃ settings, List.Forall₂ Sets argv settings ∧ a' = settings.foldl Setting.apply a := by
  induction argv generalizing a with
  | nil =>
    constructor
    · intro h
      cases h
      exact ⟨[], .nil, rfl⟩
    · intro h
      obtain ⟨settings, hnil, rfl⟩ := h
      cases hnil
      rfl
  | cons s argv ih =>
    rw [List.foldlM_cons]
    constructor
    · intro h
      cases hs : parseArg prog a s with
      | error e =>
        rw [hs] at h
        cases h
      | ok next =>
        rw [hs] at h
        obtain ⟨settings, hrest, rfl⟩ := ih.mp h
        obtain ⟨setting, hsets, rfl⟩ := parseArg_ok_iff.mp hs
        exact ⟨setting :: settings, .cons hsets hrest, rfl⟩
    · intro h
      obtain ⟨settings, hall, rfl⟩ := h
      cases hall with
      | cons hsets hrest =>
        rw [parseArg_ok_iff.mpr ⟨_, hsets, rfl⟩]
        exact ih.mpr ⟨_, hrest, rfl⟩

/-- The first argument that is not accepted decides. -/
theorem foldlM_error_iff : argv.foldlM (parseArg prog) a = .error e ↔
    ∃ front s back settings, argv = front ++ s :: back ∧ List.Forall₂ Sets front settings ∧
      Ends prog s e := by
  induction argv generalizing a with
  | nil =>
    constructor
    · intro h
      cases h
    · intro h
      obtain ⟨front, s, back, settings, hsplit, -⟩ := h
      simp at hsplit
  | cons s argv ih =>
    rw [List.foldlM_cons]
    constructor
    · intro h
      cases hs : parseArg prog a s with
      | error e' =>
        rw [hs] at h
        cases h
        exact ⟨[], s, argv, [], rfl, .nil, parseArg_error_iff.mp hs⟩
      | ok next =>
        rw [hs] at h
        obtain ⟨front, s', back, settings, rfl, hfront, hends⟩ := ih.mp h
        obtain ⟨setting, hsets, -⟩ := parseArg_ok_iff.mp hs
        exact ⟨s :: front, s', back, setting :: settings, rfl, .cons hsets hfront, hends⟩
    · intro h
      obtain ⟨front, s', back, settings, hsplit, hfront, hends⟩ := h
      cases hfront with
      | nil =>
        cases hsplit
        rw [parseArg_error_iff.mpr hends]
        rfl
      | cons hsets hrest =>
        cases hsplit
        rw [parseArg_ok_iff.mpr ⟨_, hsets, rfl⟩]
        exact ih.mpr ⟨_, _, _, _, rfl, hrest, hends⟩

/-- `if (a.threads <= 0) a.threads = 1;` -/
def withThread (a : Args) : Args := if a.threads ≤ 0 then { a with threads := 1 } else a

theorem parseArgs_ok_iff : parseArgs prog argv = .ok a ↔
    ∃ settings, List.Forall₂ Sets argv settings ∧
      a = withThread (settings.foldl Setting.apply {}) := by
  unfold parseArgs
  constructor
  · intro h
    cases hall : argv.foldlM (parseArg prog) {} with
    | error e =>
      rw [hall] at h
      cases h
    | ok last =>
      rw [hall] at h
      cases h
      obtain ⟨settings, hsets, rfl⟩ := foldlM_ok_iff.mp hall
      exact ⟨settings, hsets, rfl⟩
  · intro h
    obtain ⟨settings, hsets, rfl⟩ := h
    rw [foldlM_ok_iff.mpr ⟨settings, hsets, rfl⟩]
    rfl

theorem parseArgs_error_iff : parseArgs prog argv = .error e ↔
    ∃ front s back settings, argv = front ++ s :: back ∧ List.Forall₂ Sets front settings ∧
      Ends prog s e := by
  rw [← foldlM_error_iff (a := {})]
  unfold parseArgs
  cases hall : argv.foldlM (parseArg prog) {} with
  | error e' =>
    constructor
    · intro h
      cases h
      rfl
    · intro h
      cases h
      rfl
  | ok last =>
    constructor
    · intro h
      cases h
    · intro h
      cases h

/-! ## Writing a command line -/

theorem isSpace_of_isDigit {c : UInt8} (hc : isDigit c = true) : isSpace c = false := by
  have hrange := isDigit_iff.mp hc
  have hcode : ∀ k < 48, c ≠ UInt8.ofNat k := by
    intro k hk h
    rw [h, UInt8.toNat_ofNat_of_lt' (Nat.lt_trans hk (by decide))] at hrange
    omega
  have hblank : c ≠ ' '.toUInt8 := hcode 32 (by decide)
  have hhigh : ¬ c ≤ 13 := by
    rw [UInt8.le_iff_toNat_le]
    have hthirteen : (13 : UInt8).toNat = 13 := rfl
    omega
  simp [isSpace, hblank, hhigh]

theorem reading_numeral (n : Nat) :
    ∃ r : Reading (numeral n), r.digits = numeral n ∧ r.value = n := by
  have hfirst : ∀ c ∈ (numeral n).head?, isDigit c = true := fun c hc =>
    isDigit_numeral n c (List.mem_of_mem_head? hc)
  refine ⟨
    { spaces := []
      sign := []
      digits := numeral n
      rest := []
      split := (List.append_nil _).symm
      white := by simp
      signed := .inl rfl
      decimal := isDigit_numeral n
      spacesEnd := ?_
      signEnd := ?_
      digitsEnd := by simp }, rfl, ?_⟩
  · intro c hc
    rw [List.nil_append, List.append_nil] at hc
    exact isSpace_of_isDigit (hfirst c hc)
  · intro _ c hc
    rw [List.append_nil] at hc
    constructor
    · rintro rfl
      exact absurd (hfirst _ hc) (by decide)
    · rintro rfl
      exact absurd (hfirst _ hc) (by decide)
  · simp [Reading.value, signFactor, decimal_numeral]

theorem reading_signedNumeral (v : Int) :
    ∃ r : Reading (signedNumeral v), r.digits = numeral v.natAbs ∧ r.value = v := by
  unfold signedNumeral
  by_cases hneg : v < 0
  · rw [if_pos hneg]
    refine ⟨
      { spaces := []
        sign := ['-'.toUInt8]
        digits := numeral v.natAbs
        rest := []
        split := by simp
        white := by simp
        signed := .inr (.inr rfl)
        decimal := isDigit_numeral _
        spacesEnd := ?_
        signEnd := by simp
        digitsEnd := by simp }, rfl, ?_⟩
    · intro c hc
      cases hc
      decide
    · rw [Reading.value, signFactor, if_pos rfl, decimal_numeral]
      omega
  · rw [if_neg hneg]
    obtain ⟨r, hdigits, hvalue⟩ := reading_numeral v.natAbs
    refine ⟨r, hdigits, ?_⟩
    rw [hvalue]
    omega

theorem unsigned_numeral (n : UInt64) : Unsigned (numeral n.toNat) n := by
  obtain ⟨r, hdigits, hvalue⟩ := reading_numeral n.toNat
  have hlt := n.toNat_lt
  refine ⟨r, ?_, ?_, ?_⟩
  · rw [hdigits]
    exact numeral_ne_nil _
  · rw [hdigits, decimal_numeral]
    exact hlt
  · rw [hvalue]
    omega

theorem signed_numeral (n : Int32) : Signed (signedNumeral n.toInt) n := by
  obtain ⟨r, hdigits, hvalue⟩ := reading_signedNumeral n.toInt
  refine ⟨r, ?_, hvalue.symm⟩
  rw [hdigits]
  exact numeral_ne_nil _

theorem sets_setting (setting : Setting) : Sets setting.argument setting := by
  cases setting with
  | mode v => exact .mode v
  | variant v => exact .variant v
  | size n => exact .size (unsigned_numeral n)
  | iters n => exact .iters (unsigned_numeral n)
  | threads n => exact .threads (signed_numeral n)
  | chunk n => exact .chunk (unsigned_numeral n)

theorem forall₂_sets (settings : List Setting) :
    List.Forall₂ Sets (settings.map Setting.argument) settings := by
  induction settings with
  | nil => exact .nil
  | cons setting settings ih => exact .cons (sets_setting setting) ih

/-- All members of `Args`. -/
def settingsOf (a : Args) : List Setting :=
  [.mode a.mode, .variant a.variant, .size a.size, .iters a.iters, .threads a.threads, .chunk a.chunk]

theorem foldl_settingsOf {order : List Setting} (h : order.Perm (settingsOf a)) (start : Args) :
    order.foldl Setting.apply start = a := by
  have hcommute : ∀ x ∈ settingsOf a, ∀ y ∈ settingsOf a, ∀ z : Args,
      (y.apply (x.apply z)) = x.apply (y.apply z) := by
    intro x hx y hy z
    simp only [settingsOf, List.mem_cons, List.not_mem_nil, or_false] at hx hy
    rcases hx with rfl | rfl | rfl | rfl | rfl | rfl <;>
      rcases hy with rfl | rfl | rfl | rfl | rfl | rfl <;> rfl
  rw [h.symm.foldl_eq' hcommute start |>.symm]
  rfl

end Line

/-- The settings of the arguments, the last of a member counting, are what `parse_args` returns, with
one thread at least; and the first argument that sets nothing is how it ends otherwise. Every
settings can be written as a command line, those of an `Args` in any order. -/
theorem command_line_exact (prog : Bytes) :
    (∀ argv a, parseArgs prog argv = .ok a ↔
      ∃ settings, List.Forall₂ Sets argv settings ∧
        a = withThread (settings.foldl Setting.apply {})) ∧
    (∀ argv e, parseArgs prog argv = .error e ↔
      ∃ front s back settings, argv = front ++ s :: back ∧ List.Forall₂ Sets front settings ∧
        Ends prog s e) ∧
    (∀ settings : List Setting, parseArgs prog (settings.map Setting.argument) =
      .ok (withThread (settings.foldl Setting.apply {}))) ∧
    ∀ (a : Args) (order : List Setting), order.Perm (settingsOf a) →
      parseArgs prog (order.map Setting.argument) = .ok (withThread a) := by
  have hwritten : ∀ settings : List Setting, parseArgs prog (settings.map Setting.argument) =
      .ok (withThread (settings.foldl Setting.apply {})) := fun settings =>
    parseArgs_ok_iff.mpr ⟨settings, forall₂_sets settings, rfl⟩
  refine ⟨fun argv a => parseArgs_ok_iff, fun argv e => parseArgs_error_iff, hwritten, ?_⟩
  intro a order horder
  rw [hwritten, foldl_settingsOf horder]

end CppCodes.Guarantees.CommandLines
