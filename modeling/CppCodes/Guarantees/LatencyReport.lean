import CppCodes.Library.OrderStatistics
import CppCodes.Source.RustCpp.LatencyStats

/-!
# What the feed programs report about their latencies

The two print the same statistics of the same latencies, order statistics of the ranks that
exact arithmetic has. md.cpp prints them once, of the first hundred latencies, from however
many connections these are; main.rs prints those of one connection, or ends without.
-/

set_option autoImplicit false

namespace CppCodes.Guarantees.LatencyReport

open CppCodes.Library CppCodes.Library.Rounding CppCodes.Source.RustCpp

variable {v : List Int} {c count : Nat}

/-! ## The statistics -/

/-- The rank of a percentage, a half going up. -/
def rank (c count : Nat) : Nat := (c * (count - 1) + 50) / 100

theorem rank_mono {c' : Nat} (h : c ≤ c') (count : Nat) : rank c count ≤ rank c' count :=
  Nat.div_le_div_right (Nat.add_le_add_right (Nat.mul_le_mul_right _ h) 50)

theorem rank_le (hc : c ≤ 100) (count : Nat) : rank c count ≤ count - 1 := by
  have hprod := Nat.mul_le_mul_right (count - 1) hc
  unfold rank
  omega

theorem position_nonneg (c count : Nat) : 0 ≤ position count c := by
  have hm : (0 : ℚ) ≤ nearest 53 (count - 1 : ℕ) := nearest_nonneg 53 (Nat.cast_nonneg _)
  have hd : (0 : ℚ) ≤ nearest 53 (c / 100) := nearest_nonneg 53 (by positivity)
  exact nearest_nonneg 53 (mul_nonneg hd hm)

theorem roundAway_position (h : Percent c (nearest 53 (c / 100))) (hmany : count ≤ 2 ^ 40) :
    roundAway (position count c) = rank c count := by
  have hcount : nearest 53 (count - 1 : ℕ) = (count - 1 : ℕ) := by
    have hsize : |((count - 1 : ℕ) : ℤ)| ≤ 2 ^ 53 := by
      rw [Nat.abs_cast]
      omega
    exact_mod_cast (Digits.ofInt hsize).nearest_eq (by norm_num)
  have hfloor := h.floor_nearest_add (m := count - 1) (j := 1) (by omega) le_rfl
  rw [Nat.cast_one, mul_one] at hfloor
  unfold roundAway
  rw [if_neg (not_lt.mpr (position_nonneg c count)), position, hcount, hfloor]
  rfl

def sorted (v : List Int) : List Int := v.mergeSort (· ≤ ·)

theorem length_sorted (v : List Int) : (sorted v).length = v.length :=
  List.length_mergeSort v

theorem sorted_isEmpty (hv : v ≠ []) : (sorted v).isEmpty = false := by
  rw [List.isEmpty_eq_false_iff, ← List.length_pos_iff, length_sorted]
  exact List.length_pos_iff.mpr hv

/-- The wrap-around of the one, the clamping of the other and the test against the last index
never come into play. -/
theorem percentile_spec (h : Percent c (nearest 53 (c / 100))) (hv : v ≠ [])
    (hmany : v.length ≤ 2 ^ 40) : ∃ x, Md.percentileUs (sorted v) c = some x ∧
      MainRs.percentile (sorted v) c = some x ∧ IsNth (rank c v.length) v x := by
  have hpos : 0 < v.length := List.length_pos_iff.mpr hv
  have hrank := rank_le h.le_hundred v.length
  have hround := roundAway_position h hmany
  have hwrap : ((rank c v.length : ℤ) % 2 ^ 64).toNat = rank c v.length := by omega
  obtain ⟨x, hx, hnth⟩ := isNth_mergeSort (v := v) (n := rank c v.length) (by omega)
  refine ⟨x, ?_, ?_, hnth⟩
  · unfold Md.percentileUs
    rw [if_neg (by simp [sorted_isEmpty hv]), length_sorted]
    dsimp only
    rw [hround, hwrap, min_eq_left hrank]
    exact hx
  · unfold MainRs.percentile
    rw [if_neg (by simp [sorted_isEmpty hv]), length_sorted]
    dsimp only
    rw [hround, Int.toNat_natCast, min_eq_left hrank]
    exact hx

/-- The text has the least and the greatest latency and, between them, the ones of the ranks of
the percentages. -/
structure Reports (v : List Int) (out : String) (min max p10 p50 p90 p99 : Int) : Prop where
  text : out = statsText v.length min max p10 p50 p90 p99
  least : IsNth 0 v min
  tenth : IsNth (rank 10 v.length) v p10
  fiftieth : IsNth (rank 50 v.length) v p50
  ninetieth : IsNth (rank 90 v.length) v p90
  ninetyNinth : IsNth (rank 99 v.length) v p99
  greatest : IsNth (v.length - 1) v max
  ordered : min ≤ p10 ∧ p10 ≤ p50 ∧ p50 ≤ p90 ∧ p90 ≤ p99 ∧ p99 ≤ max

theorem printLatencyStats_reports (hv : v ≠ []) (hmany : v.length ≤ 2 ^ 40) :
    ∃ out min max p10 p50 p90 p99, Md.printLatencyStats v = some out ∧
      MainRs.printLatencyStats v = some out ∧ Reports v out min max p10 p50 p90 p99 := by
  have hpos : 0 < v.length := List.length_pos_iff.mpr hv
  obtain ⟨p10, hcpp10, hrust10, tenth⟩ := percentile_spec percent_ten hv hmany
  obtain ⟨p50, hcpp50, hrust50, fiftieth⟩ := percentile_spec percent_fifty hv hmany
  obtain ⟨p90, hcpp90, hrust90, ninetieth⟩ := percentile_spec percent_ninety hv hmany
  obtain ⟨p99, hcpp99, hrust99, ninetyNinth⟩ := percentile_spec percent_ninety_nine hv hmany
  obtain ⟨min, hmin, least⟩ := isNth_mergeSort (v := v) (n := 0) hpos
  obtain ⟨max, hmax, greatest⟩ := isNth_mergeSort (v := v) (n := v.length - 1) (by omega)
  have hhead : (sorted v).head? = some min := by
    rw [List.head?_eq_getElem?]
    exact hmin
  have hlast : (sorted v).getLast? = some max := by
    rw [List.getLast?_eq_getElem?, length_sorted]
    exact hmax
  have hempty : ¬ v.isEmpty = true := by simpa using hv
  refine ⟨statsText v.length min max p10 p50 p90 p99, min, max, p10, p50, p90, p99, ?_, ?_, ?_⟩
  · unfold Md.printLatencyStats
    rw [if_neg hempty]
    change (do
      let min ← (sorted v).head?
      let max ← (sorted v).getLast?
      let p10 ← Md.percentileUs (sorted v) (10 : ℕ)
      let p50 ← Md.percentileUs (sorted v) (50 : ℕ)
      let p90 ← Md.percentileUs (sorted v) (90 : ℕ)
      let p99 ← Md.percentileUs (sorted v) (99 : ℕ)
      return statsText (sorted v).length min max p10 p50 p90 p99) = _
    rw [hhead, hlast, hcpp10, hcpp50, hcpp90, hcpp99, length_sorted]
    rfl
  · unfold MainRs.printLatencyStats
    rw [if_neg hempty]
    change (do
      let p10 ← MainRs.percentile (sorted v) (10 : ℕ)
      let p50 ← MainRs.percentile (sorted v) (50 : ℕ)
      let p90 ← MainRs.percentile (sorted v) (90 : ℕ)
      let p99 ← MainRs.percentile (sorted v) (99 : ℕ)
      return statsText (sorted v).length ((sorted v).head?.getD 0) ((sorted v).getLast?.getD 0)
        p10 p50 p90 p99) = _
    rw [hhead, hlast, hrust10, hrust50, hrust90, hrust99, length_sorted]
    rfl
  · refine ⟨rfl, least, tenth, fiftieth, ninetieth, ninetyNinth, greatest, ?_⟩
    refine ⟨least.mono tenth (Nat.zero_le _), tenth.mono fiftieth (rank_mono (by norm_num) _),
      fiftieth.mono ninetieth (rank_mono (by norm_num) _),
      ninetieth.mono ninetyNinth (rank_mono (by norm_num) _),
      ninetyNinth.mono greatest (rank_le (by norm_num) _)⟩

/-- Both programs print the same text for up to `2 ^ 40` latencies, in whatever order: the least,
the greatest and the ones of the exactly rounded ranks, which do not decrease. -/
theorem latency_statistics_exact (latencies : List Int) (hmany : latencies.length ≤ 2 ^ 40) :
    (latencies = [] → Md.printLatencyStats latencies = some "[STATS] no samples collected" ∧
        MainRs.printLatencyStats latencies = some "[STATS] no samples collected") ∧
      (latencies ≠ [] → ∃ out min max p10 p50 p90 p99,
        Md.printLatencyStats latencies = some out ∧ MainRs.printLatencyStats latencies = some out ∧
          Reports latencies out min max p10 p50 p90 p99) := by
  constructor
  · rintro rfl
    exact ⟨rfl, rfl⟩
  · intro hsome
    exact printLatencyStats_reports hsome hmany

theorem latency_statistics_exact_two :
    ∃ out min max p10 p50 p90 p99, Md.printLatencyStats [7, 3] = some out ∧
      MainRs.printLatencyStats [7, 3] = some out ∧ Reports [7, 3] out min max p10 p50 p90 p99 :=
  (latency_statistics_exact [7, 3] (by decide)).2 (by simp)

/-! ## The latencies of a connection -/

variable {F : Type} [LinearOrder F]

/-- The samples are among the messages there have been, and there is room for one more until the
limit has ended the connection. -/
structure Counted (taken seen : Nat) (s : Session F) : Prop where
  received : s.received ≤ seen
  samples : ∀ i ∈ s.samples, i < seen
  limit : taken + s.samples.length ≤ updateLimit
  room : s.phase ≠ .left → taken + s.samples.length < updateLimit

variable {taken seen : Nat} {s : Session F}

/-- A message that is not sampled. -/
theorem Counted.pass (h : Counted taken seen s) (hphase : s.phase ≠ .left) (feed : Feed F) (phase : Phase) :
    Counted taken (seen + 1) { s with feed, phase, received := s.received + 1 } := by
  constructor
  · exact Nat.succ_le_succ h.received
  · intro i hi
    exact Nat.lt_succ_of_lt (h.samples i hi)
  · exact h.limit
  · intro _
    exact h.room hphase

theorem Counted.left (h : Counted taken seen s) : Counted taken (seen + 1) s := by
  constructor
  · exact Nat.le_succ_of_le h.received
  · intro i hi
    exact Nat.lt_succ_of_lt (h.samples i hi)
  · exact h.limit
  · exact h.room

variable [Zero F] {n : Numbers F}

/-- One connection has ended the program, with its statistics or without. -/
structure Ends (n : Numbers F) (connections : List (Connection F)) (s : Program) : Prop where
  going : s.stopped = false → s.printed = []
  ended : s.stopped = true → ∃ c ∈ connections,
    MainRs.runOnce n c = .okPrinted s.latencies ∧
        s.printed = [MainRs.printLatencyStats s.latencies] ∨
      MainRs.runOnce n c = .okSilent s.latencies ∧ s.printed = []

end CppCodes.Guarantees.LatencyReport
