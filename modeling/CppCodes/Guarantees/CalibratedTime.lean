import CppCodes.Library.OrderStatistics
import CppCodes.Source.PerfLab.Calibration
import Mathlib.Algebra.Order.Field.Rat
import Mathlib.Tactic.FieldSimp
import Mathlib.Tactic.Linarith
import Mathlib.Tactic.Positivity

/-!
# The calibrated time

The calibration takes the median of several rounds. When most of them have a frequency
between two bounds, so has the median, however far off the others are (a counter that runs
backwards in a round included) and whatever ratio of that rank `std::nth_element` leaves at
the index; the nanoseconds made of a cycle count are then those of a frequency between the
bounds, to half a nanosecond.
-/

set_option autoImplicit false

namespace CppCodes.Guarantees.CalibratedTime

open CppCodes.Library CppCodes.Source.PerfLab.Calibration

/-- Cycles for each nanosecond. -/
def ratio (r : CalibRatio) : ℚ := r.dc.toNat / r.dtNs.toNat

variable {durationNs t0 cycles : UInt64} {rounds : Nat} {readings left : Readings}
  {v : List CalibRatio} {a b r : CalibRatio} {clock rest : List UInt64}

/-! ## One round -/

/-- The wait ends behind a reading that is late enough. -/
theorem busyWait_spec (h : busyWait t0 durationNs clock = some rest) :
    ∃ early now, clock = early ++ now :: rest ∧ durationNs ≤ now - t0 := by
  induction clock with
  | nil => cases h
  | cons now clock ih =>
    unfold busyWait at h
    by_cases hearly : now - t0 < durationNs
    · rw [if_pos hearly] at h
      obtain ⟨early, late, rfl, hlate⟩ := ih h
      exact ⟨now :: early, late, rfl, hlate⟩
    · rw [if_neg hearly] at h
      cases h
      exact ⟨[], now, rfl, UInt64.not_lt.mp hearly⟩

/-- The readings of a clock that does not run backwards, in the first 292 years of it. -/
structure Steady (clock : List UInt64) : Prop where
  mono : clock.Pairwise (· ≤ ·)
  below : ∀ now ∈ clock, now.toNat < 2 ^ 63

theorem sub_le_sub {now t1 : UInt64} (h0 : t0 ≤ now) (h1 : now ≤ t1) : now - t0 ≤ t1 - t0 := by
  rw [UInt64.le_iff_toNat_le] at *
  rw [UInt64.toNat_sub_of_le _ _ (UInt64.le_iff_toNat_le.mpr h0),
    UInt64.toNat_sub_of_le _ _ (UInt64.le_iff_toNat_le.mpr (h0.trans h1))]
  omega

/-- A round takes its time, and the readings behind it are the last ones. -/
theorem calibrateOnce_spec (steady : Steady readings.clock)
    (h : calibrateOnce durationNs readings = some (r, left)) :
    (durationNs ≤ r.dtNs ∧ r.dtNs.toNat < 2 ^ 63) ∧ Steady left.clock := by
  unfold calibrateOnce at h
  simp only [Option.bind_eq_bind, Option.bind_eq_some_iff, Option.pure_def, Option.some.injEq,
    Prod.mk.injEq] at h
  obtain ⟨t0, ht0, c0, -, rest, hwait, c1, -, t1, ht1, rfl, rfl⟩ := h
  obtain ⟨early, now, htail, hlate⟩ := busyWait_spec hwait
  have hclock : readings.clock = t0 :: (early ++ now :: t1 :: rest.tail) := by
    rw [← List.cons_head?_tail ht0, htail, List.cons_head?_tail ht1]
  obtain ⟨hmono, hbelow⟩ := steady
  rw [hclock] at hmono hbelow
  rw [List.pairwise_cons, List.pairwise_append, List.pairwise_cons, List.pairwise_cons] at hmono
  obtain ⟨hfirst, -, ⟨hnow, -, hrest⟩, -⟩ := hmono
  have h0 : t0 ≤ now := hfirst now (by simp)
  have h1 : now ≤ t1 := hnow t1 List.mem_cons_self
  have hlast : t1.toNat < 2 ^ 63 := hbelow t1 (by simp)
  refine ⟨⟨UInt64.le_trans hlate (sub_le_sub h0 h1), ?_⟩, hrest, ?_⟩
  · change (t1 - t0).toNat < 2 ^ 63
    rw [UInt64.toNat_sub_of_le _ _ (UInt64.le_trans h0 h1)]
    omega
  · intro now hmem
    exact hbelow now (by simp [hmem])

theorem calibrateRounds_spec (steady : Steady readings.clock)
    (h : calibrateRounds durationNs rounds readings = some (v, left)) :
    v.length = rounds ∧ ∀ r ∈ v, durationNs ≤ r.dtNs ∧ r.dtNs.toNat < 2 ^ 63 := by
  induction rounds generalizing readings v with
  | zero =>
    cases h
    exact ⟨rfl, by simp⟩
  | succ rounds ih =>
    unfold calibrateRounds at h
    simp only [Option.bind_eq_bind, Option.bind_eq_some_iff, Option.pure_def, Option.some.injEq,
      Prod.mk.injEq, Prod.exists] at h
    obtain ⟨r, next, honce, v, last, hmore, rfl, rfl⟩ := h
    obtain ⟨hlong, hnext⟩ := calibrateOnce_spec steady honce
    obtain ⟨hlength, hall⟩ := ih hnext hmore
    exact ⟨by rw [List.length_cons, hlength], List.forall_mem_cons.mpr ⟨hlong, hall⟩⟩

/-! ## The median -/

theorem int128_eq {x : Int} (h0 : 0 ≤ x) (h : x < 2 ^ 127) : int128 x = x := by
  unfold int128
  rw [Int.bmod_def, Int.emod_eq_of_lt h0 (by omega), if_pos (by omega)]

/-- The ratio is that of a round: it took time, of at most 63 bits. -/
structure Round (r : CalibRatio) : Prop where
  elapsed : 0 < r.dtNs.toNat
  nanos : r.dtNs.toNat < 2 ^ 63

/-- A product of cycles and nanoseconds, with half of a divisor on top, is no more than
`__int128` holds. -/
theorem product_lt {m n : Nat} (hm : m < 2 ^ 64) (hn : n < 2 ^ 63) : m * n + 2 ^ 63 < 2 ^ 127 := by
  have hprod : m * n ≤ (2 ^ 64 - 1) * (2 ^ 63 - 1) :=
    Nat.mul_le_mul (Nat.le_pred_of_lt hm) (Nat.le_pred_of_lt hn)
  omega

theorem lessHz_iff (ha : Round a) (hb : Round b) : lessHz a b = true ↔ ratio a < ratio b := by
  have hposa : (0 : ℚ) < a.dtNs.toNat := by exact_mod_cast ha.elapsed
  have hposb : (0 : ℚ) < b.dtNs.toNat := by exact_mod_cast hb.elapsed
  have hbound : ∀ {m n : Nat}, m < 2 ^ 64 → n < 2 ^ 63 → (m * n : Int) < 2 ^ 127 := by
    intro m n hm hn
    have hprod := product_lt hm hn
    rw [← Nat.cast_mul]
    omega
  unfold lessHz ratio
  rw [decide_eq_true_eq, int128_eq (by positivity) (hbound a.dc.toNat_lt hb.nanos),
    int128_eq (by positivity) (hbound b.dc.toNat_lt ha.nanos), div_lt_div_iff₀ hposa hposb]
  exact_mod_cast Iff.rfl

/-- Less and greater being decided by the frequencies, the element at the index has its rank. -/
theorem isNth_of_nthElement {n : Nat} {v' : List CalibRatio} (hrounds : ∀ x ∈ v, Round x)
    (h : NthElement lessHz n v v' r) : IsNth n (v.map ratio) (ratio r) := by
  have hrounds' : ∀ x ∈ v', Round x := fun x hx => hrounds x (h.perm.mem_iff.mp hx)
  obtain ⟨hn, rfl⟩ := List.getElem?_eq_some_iff.mp h.at_index
  have hr := hrounds' _ (List.getElem_mem hn)
  have hn' : n < (v'.map ratio).length := by
    rw [List.length_map]
    exact hn
  have hnth : IsNth n (v'.map ratio) (v'.map ratio)[n] := by
    apply isNth_of_partition
    · intro y hy
      rw [← List.map_take] at hy
      obtain ⟨x, hx, rfl⟩ := List.mem_map.mp hy
      rw [List.getElem_map, ← not_lt, ← lessHz_iff hr (hrounds' x (List.mem_of_mem_take hx)),
        h.before x hx]
      exact Bool.false_ne_true
    · intro y hy
      rw [← List.map_drop] at hy
      obtain ⟨x, hx, rfl⟩ := List.mem_map.mp hy
      rw [List.getElem_map, ← not_lt, ← lessHz_iff (hrounds' x (List.mem_of_mem_drop hx)) hr,
        h.behind x hx]
      exact Bool.false_ne_true
  rw [List.getElem_map] at hnth
  exact hnth.perm (h.perm.map ratio)

/-- A median of a list most of whose elements lie between two bounds lies there. -/
theorem median_between (lo hi : ℚ) {w : List ℚ} {x : ℚ} (h : IsNth (w.length / 2) w x)
    (hmost : w.length / 2 < w.countP fun y => lo ≤ y ∧ y ≤ hi) : lo ≤ x ∧ x ≤ hi := by
  constructor
  · rw [h.lt_iff]
    have hsplit := List.length_eq_countP_add_countP (fun y => decide (lo ≤ y ∧ y ≤ hi)) (l := w)
    have hrest : w.countP (· < lo) ≤ w.countP fun y => ¬ decide (lo ≤ y ∧ y ≤ hi) = true :=
      List.countP_mono_left fun y _ hy => by
        simp only [decide_eq_true_eq] at hy ⊢
        exact fun hin => absurd hin.1 (not_le.mpr hy)
    omega
  · rw [h.le_iff]
    refine hmost.trans_le (List.countP_mono_left fun y _ hy => ?_)
    simp only [decide_eq_true_eq] at hy ⊢
    exact hy.2

/-! ## From cycles to nanoseconds -/

/-- The division rounds to the nearest integer. -/
theorem div_add_half (m : Nat) {d : Nat} (hd : 0 < d) :
    (m : ℚ) / d - 1 / 2 ≤ ((m + d / 2) / d : ℕ) ∧ ((m + d / 2) / d : ℕ) ≤ (m : ℚ) / d + 1 / 2 := by
  have hdq : (0 : ℚ) < d := by exact_mod_cast hd
  have hlow := Nat.div_mul_le_self (m + d / 2) d
  have hhigh := Nat.lt_div_mul_add hd (a := m + d / 2)
  generalize (m + d / 2) / d = q at *
  have hlowq : (q : ℚ) * d * 2 ≤ 2 * m + d := by
    have hnat : q * d * 2 ≤ 2 * m + d := by omega
    exact_mod_cast hnat
  have hhighq : (2 : ℚ) * m ≤ q * d * 2 + d := by
    have hnat : 2 * m ≤ q * d * 2 + d := by omega
    exact_mod_cast hnat
  have hcancel : (m : ℚ) / d * d = m := div_mul_cancel₀ _ hdq.ne'
  constructor
  · refine le_of_mul_le_mul_right ?_ hdq
    linarith
  · refine le_of_mul_le_mul_right ?_ hdq
    linarith

theorem cyclesToNs_spec (hr : Round r) (hdc : 0 < r.dc.toNat)
    (hfits : (cycles.toNat : ℚ) / ratio r + 1 / 2 < 2 ^ 64) :
    ∃ ns, cyclesToNs cycles r = some ns ∧ cycles.toNat / ratio r - 1 / 2 ≤ ns.toNat ∧
      ns.toNat ≤ cycles.toNat / ratio r + 1 / 2 := by
  have hquot : (cycles.toNat : ℚ) / ratio r = (cycles.toNat * r.dtNs.toNat : ℕ) / r.dc.toNat := by
    unfold ratio
    push_cast
    rw [div_div_eq_mul_div]
  rw [hquot] at hfits ⊢
  obtain ⟨hlow, hhigh⟩ := div_add_half (cycles.toNat * r.dtNs.toNat) hdc
  have hprod := product_lt cycles.toNat_lt hr.nanos
  have hsize := r.dc.toNat_lt
  have hhalf : (r.dc / 2).toNat = r.dc.toNat / 2 := by simp
  have hne : r.dc ≠ 0 := by
    rintro hzero
    rw [hzero] at hdc
    exact absurd hdc (by decide)
  unfold cyclesToNs
  dsimp only
  rw [if_neg hne, hhalf, ← Nat.cast_mul]
  generalize cycles.toNat * r.dtNs.toNat = m at *
  have hbits : (m + r.dc.toNat / 2) / r.dc.toNat < 2 ^ 64 := by
    exact_mod_cast hhigh.trans_lt hfits
  have hnum : int128 (int128 m + (r.dc.toNat / 2 : ℕ)) = (m + r.dc.toNat / 2 : ℕ) := by
    rw [int128_eq (x := m) (by omega) (by omega), ← Nat.cast_add]
    exact int128_eq (by omega) (by omega)
  refine ⟨UInt64.ofNat ((m + r.dc.toNat / 2) / r.dc.toNat), ?_, ?_⟩
  · have hcast : (((m + r.dc.toNat / 2) / r.dc.toNat : ℕ) % 2 ^ 64 : Int).toNat =
        (m + r.dc.toNat / 2) / r.dc.toNat := by
      rw [Int.emod_eq_of_lt (Nat.cast_nonneg _) (by exact_mod_cast hbits), Int.toNat_natCast]
    rw [hnum, ← Int.ofNat_tdiv, UInt64.ofInt, hcast]
  · rw [UInt64.toNat_ofNat_of_lt' hbits]
    exact ⟨hlow, hhigh⟩

/-- On a clock that does not run backwards the rounds are compared by their frequencies, and a
calibration most of whose rounds have one between two bounds turns a count of cycles into the
nanoseconds of a frequency between them, to half a nanosecond, whatever the counter did in the
other rounds; the nanoseconds at the lower bound must fit into the 64 bits of the result. -/
theorem estimate_within (lo hi : ℚ) (steady : Steady readings.clock) (hduration : 0 < durationNs)
    (hmedian : CalibrateMedian rounds durationNs readings v r) (hlo : 0 < lo)
    (hmost : rounds / 2 < v.countP fun x => lo ≤ ratio x ∧ ratio x ≤ hi)
    (hfits : (cycles.toNat : ℚ) / lo + 1 / 2 < 2 ^ 64) :
    (∀ a ∈ v, ∀ b ∈ v, lessHz a b = true ↔ ratio a < ratio b) ∧
      ∃ ns, cyclesToNs cycles r = some ns ∧ cycles.toNat / hi - 1 / 2 ≤ ns.toNat ∧
        ns.toNat ≤ cycles.toNat / lo + 1 / 2 := by
  obtain ⟨left, v', hrun, hnth⟩ := hmedian
  obtain ⟨hlength, hlong⟩ := calibrateRounds_spec steady hrun
  have hrounds : ∀ x ∈ v, Round x := by
    intro x hx
    have hx0 : 0 < x.dtNs.toNat :=
      UInt64.lt_iff_toNat_lt.mp (UInt64.lt_of_lt_of_le hduration (hlong x hx).1)
    exact ⟨hx0, (hlong x hx).2⟩
  have hrank := isNth_of_nthElement hrounds hnth
  rw [← hlength, ← List.length_map (f := ratio)] at hrank
  obtain ⟨hlow, hhigh⟩ := median_between lo hi hrank (by
    rw [List.length_map, hlength, List.countP_map]
    exact hmost)
  have hmem : r ∈ v := hnth.perm.mem_iff.mp (List.mem_of_getElem? hnth.at_index)
  have hround := hrounds r hmem
  have hratio : 0 < ratio r := hlo.trans_le hlow
  have hdc : 0 < r.dc.toNat := by
    rcases Nat.eq_zero_or_pos r.dc.toNat with hzero | hpos
    · unfold ratio at hratio
      rw [hzero, Nat.cast_zero, zero_div] at hratio
      exact absurd hratio (lt_irrefl 0)
    · exact hpos
  have hupper : (cycles.toNat : ℚ) / ratio r ≤ cycles.toNat / lo :=
    div_le_div_of_nonneg_left (Nat.cast_nonneg _) hlo hlow
  have hlower : (cycles.toNat : ℚ) / hi ≤ cycles.toNat / ratio r :=
    div_le_div_of_nonneg_left (Nat.cast_nonneg _) hratio hhigh
  have hbits : (cycles.toNat : ℚ) / ratio r + 1 / 2 < 2 ^ 64 := by linarith
  obtain ⟨ns, hns, hge, hle⟩ := cyclesToNs_spec hround hdc hbits
  exact ⟨fun a ha b hb => lessHz_iff (hrounds a ha) (hrounds b hb), ns, hns, by linarith, by linarith⟩

/-- Three rounds of at least five nanoseconds; in the last one the counter runs backwards. -/
theorem estimate_within_three_rounds :
    ∃ ns, cyclesToNs 40 { dc := 20, dtNs := 10 } = some ns ∧
      (40 : UInt64).toNat / (2 : ℚ) - 1 / 2 ≤ ns.toNat ∧ ns.toNat ≤ (40 : UInt64).toNat / (2 : ℚ) + 1 / 2 := by
  have hrun : calibrateRounds 5 3 { clock := [0, 3, 6, 10, 10, 16, 20, 20, 40, 40]
                                    tsc := [0, 20, 30, 50, 160, 60] } =
      some ([{ dc := 20, dtNs := 10 }, { dc := 20, dtNs := 10 }, { dc := 60 - 160, dtNs := 20 }],
        { clock := [], tsc := [] }) := rfl
  have hmedian : NthElement lessHz (3 / 2)
      [{ dc := 20, dtNs := 10 }, { dc := 20, dtNs := 10 }, { dc := 60 - 160, dtNs := 20 }]
      [{ dc := 20, dtNs := 10 }, { dc := 20, dtNs := 10 }, { dc := 60 - 160, dtNs := 20 }]
      { dc := 20, dtNs := 10 } := ⟨List.Perm.refl _, rfl, by decide, by decide⟩
  have hnear : ratio { dc := 20, dtNs := 10 } = 2 := by
    change ((20 : ℕ) : ℚ) / (10 : ℕ) = 2
    norm_num
  refine (estimate_within 2 2 ⟨by decide, by simp⟩ (by decide) ⟨_, _, hrun, hmedian⟩
    (by norm_num) ?_ ?_).2
  · rw [List.countP_cons, List.countP_cons, hnear]
    simp
  · change ((40 : ℕ) : ℚ) / 2 + 1 / 2 < 2 ^ 64
    norm_num

end CppCodes.Guarantees.CalibratedTime
