import Mathlib.Algebra.Order.Round
import Mathlib.Data.Int.Log
import Mathlib.Data.Rat.Floor
import Mathlib.Tactic.Linarith
import Mathlib.Tactic.Positivity
import Mathlib.Tactic.Ring

/-!
# Rounding to a binary precision

The nearest number with a significand of `p` binary digits, ties to the even one, and no bound
on the exponent. It is monotone, leaves alone what has such a significand already, and errs by
a `2 ^ p`-th of the number at most. Monotonicity is used through the numbers left alone: a
bound that is one of them stays a bound.
-/

set_option autoImplicit false

namespace CppCodes.Library.Rounding

/-- The nearest integer, ties to the even one. -/
def toEven (q : ℚ) : ℤ :=
  if 2 * (q - ⌊q⌋) < 1 then ⌊q⌋
  else if 1 < 2 * (q - ⌊q⌋) then ⌊q⌋ + 1
  else if ⌊q⌋ % 2 = 0 then ⌊q⌋ else ⌊q⌋ + 1

/-- The value of the last of the `p` digits. -/
def unit (p : ℕ) (x : ℚ) : ℚ := 2 ^ (Int.log 2 |x| + 1 - p)

def nearest (p : ℕ) (x : ℚ) : ℚ := toEven (x / unit p x) * unit p x

variable {p : ℕ} {q r x y : ℚ}

/-! ## To the integers -/

theorem toEven_cases (q : ℚ) :
    (2 * (q - ⌊q⌋) ≤ 1 ∧ toEven q = ⌊q⌋) ∨ (1 ≤ 2 * (q - ⌊q⌋) ∧ toEven q = ⌊q⌋ + 1) := by
  unfold toEven
  split_ifs with hlow hhigh
  · exact .inl ⟨hlow.le, rfl⟩
  · exact .inr ⟨hhigh.le, rfl⟩
  · exact .inl ⟨not_lt.mp hhigh, rfl⟩
  · exact .inr ⟨not_lt.mp hlow, rfl⟩

theorem abs_toEven_sub_le (q : ℚ) : |(toEven q : ℚ) - q| ≤ 1 / 2 := by
  have hfloor := Int.floor_le q
  have hceil := Int.lt_floor_add_one q
  rw [abs_le]
  obtain ⟨hfrac, he⟩ | ⟨hfrac, he⟩ := toEven_cases q <;> rw [he] <;> push_cast <;>
    constructor <;> linarith

theorem floor_le_toEven (q : ℚ) : ⌊q⌋ ≤ toEven q := by
  obtain ⟨-, he⟩ | ⟨-, he⟩ := toEven_cases q <;> omega

theorem toEven_le_floor_succ (q : ℚ) : toEven q ≤ ⌊q⌋ + 1 := by
  obtain ⟨-, he⟩ | ⟨-, he⟩ := toEven_cases q <;> omega

theorem toEven_mono (h : q ≤ r) : toEven q ≤ toEven r := by
  rcases (Int.floor_le_floor h).lt_or_eq with hlt | heq
  · have hlow := toEven_le_floor_succ q
    have hhigh := floor_le_toEven r
    omega
  · have hstep : q - ⌊r⌋ ≤ r - ⌊r⌋ := by linarith
    unfold toEven
    rw [heq]
    split_ifs <;> first | omega | linarith

/-- Less than half a unit away from an integer it is that integer. -/
theorem toEven_eq_of_lt {k : ℤ} (h : |q - k| < 1 / 2) : toEven q = k := by
  have herr := abs_toEven_sub_le q
  rw [abs_lt] at h
  rw [abs_le] at herr
  have hbelow : (toEven q : ℚ) < k + 1 := by linarith
  have habove : (k : ℚ) < toEven q + 1 := by linarith
  have hle : toEven q < k + 1 := by exact_mod_cast hbelow
  have hge : k < toEven q + 1 := by exact_mod_cast habove
  omega

@[simp] theorem toEven_intCast (k : ℤ) : toEven k = k := toEven_eq_of_lt (by simp)

@[simp] theorem toEven_zero : toEven 0 = 0 := by simpa using toEven_intCast 0

theorem toEven_neg (q : ℚ) : toEven (-q) = -toEven q := by
  rcases eq_or_ne (⌊q⌋ : ℚ) q with hint | hne
  · rw [← hint, ← Int.cast_neg, toEven_intCast, toEven_intCast]
  · have hfloor : ⌊-q⌋ = -⌊q⌋ - 1 := by
      have hlt := lt_of_le_of_ne (Int.floor_le q) hne
      have hceil := Int.lt_floor_add_one q
      rw [Int.floor_eq_iff]
      push_cast
      constructor <;> linarith
    unfold toEven
    rw [hfloor]
    push_cast
    split_ifs <;> first | omega | linarith

/-! ## To a precision -/

theorem unit_pos (p : ℕ) (x : ℚ) : 0 < unit p x := zpow_pos two_pos _

@[simp] theorem unit_neg (p : ℕ) (x : ℚ) : unit p (-x) = unit p x := by
  unfold unit
  rw [abs_neg]

@[simp] theorem nearest_zero (p : ℕ) : nearest p 0 = 0 := by simp [nearest]

theorem nearest_neg (p : ℕ) (x : ℚ) : nearest p (-x) = -nearest p x := by
  unfold nearest
  rw [unit_neg, neg_div, toEven_neg]
  push_cast
  ring

theorem two_zpow_succ_sub (e : ℤ) (p : ℕ) : (2 : ℚ) ^ (e + 1) = 2 ^ p * 2 ^ (e + 1 - p) := by
  rw [← zpow_natCast (2 : ℚ) p, ← zpow_add₀ two_ne_zero]
  congr 1
  omega

/-- The number lies between the `p - 1`-st and the `p`-th power of two, in its own units. -/
theorem lt_unit (p : ℕ) (x : ℚ) : |x| < 2 ^ p * unit p x := by
  unfold unit
  rw [← two_zpow_succ_sub]
  exact Int.lt_zpow_succ_log_self one_lt_two |x|

theorem unit_le (p : ℕ) (hx : x ≠ 0) : 2 ^ p * unit p x ≤ 2 * |x| := by
  unfold unit
  rw [← two_zpow_succ_sub, zpow_add_one₀ two_ne_zero, mul_comm]
  have hlow := Int.zpow_log_le_self (b := 2) one_lt_two (abs_pos.mpr hx)
  push_cast at hlow
  linarith

theorem nearest_nonneg (p : ℕ) (hx : 0 ≤ x) : 0 ≤ nearest p x := by
  unfold nearest
  have hpos := unit_pos p x
  have hround : toEven 0 ≤ toEven (x / unit p x) := toEven_mono (by positivity)
  rw [toEven_zero] at hround
  have hcast : (0 : ℚ) ≤ toEven (x / unit p x) := by exact_mod_cast hround
  positivity

theorem abs_nearest_sub_le_unit (p : ℕ) (x : ℚ) : |nearest p x - x| ≤ unit p x / 2 := by
  have hpos := unit_pos p x
  have herr := abs_toEven_sub_le (x / unit p x)
  have hscale : nearest p x - x = (toEven (x / unit p x) - x / unit p x) * unit p x := by
    unfold nearest
    rw [sub_mul, div_mul_cancel₀ _ hpos.ne']
  calc |nearest p x - x|
      = |toEven (x / unit p x) - x / unit p x| * unit p x := by
        rw [hscale, abs_mul, abs_of_pos hpos]
    _ ≤ 1 / 2 * unit p x := mul_le_mul_of_nonneg_right herr hpos.le
    _ = unit p x / 2 := by ring

/-- The relative error. -/
theorem abs_nearest_sub_le (p : ℕ) (x : ℚ) : |nearest p x - x| ≤ |x| / 2 ^ p := by
  rcases eq_or_ne x 0 with rfl | hx
  · simp
  · have herr := abs_nearest_sub_le_unit p x
    have hunit := unit_le p hx
    rw [le_div_iff₀ (by positivity)]
    calc |nearest p x - x| * 2 ^ p
        ≤ unit p x / 2 * 2 ^ p := mul_le_mul_of_nonneg_right herr (by positivity)
      _ = 2 ^ p * unit p x / 2 := by ring
      _ ≤ |x| := by linarith

/-- A multiple of the unit less than half a unit away is the nearest. -/
theorem nearest_eq_of_lt {k : ℤ} (hy : y = k * unit p x) (h : |x - y| < unit p x / 2) :
    nearest p x = y := by
  have hpos := unit_pos p x
  have hscale : x / unit p x - k = (x - y) / unit p x := by
    rw [hy, sub_div, mul_div_cancel_right₀ _ hpos.ne']
  have hround : toEven (x / unit p x) = k := by
    apply toEven_eq_of_lt
    rw [hscale, abs_div, abs_of_pos hpos, div_lt_iff₀ hpos]
    linarith
  unfold nearest
  rw [hround, hy]

/-- Below `2 ^ (p + e)` every multiple of `2 ^ e` is one of the unit. -/
theorem exists_mul_unit {e : ℤ} (hx : |x| < 2 ^ (p + e)) (hx0 : x ≠ 0) (k : ℤ) :
    ∃ k' : ℤ, (k : ℚ) * 2 ^ e = k' * unit p x := by
  have hlog : Int.log 2 |x| < p + e := by
    rw [← Int.lt_zpow_iff_log_lt one_lt_two (abs_pos.mpr hx0)]
    exact_mod_cast hx
  obtain ⟨d, hd⟩ := Int.eq_ofNat_of_zero_le (a := e - (Int.log 2 |x| + 1 - p)) (by omega)
  refine ⟨k * 2 ^ d, ?_⟩
  unfold unit
  push_cast
  rw [mul_assoc, ← zpow_natCast (2 : ℚ) d, ← zpow_add₀ two_ne_zero]
  congr 2
  omega

/-- The number has a significand of `p` digits. -/
def Digits (p : ℕ) (x : ℚ) : Prop := ∃ (k : ℤ) (e : ℤ), |k| ≤ 2 ^ p ∧ x = k * 2 ^ e

theorem Digits.ofInt {k : ℤ} (h : |k| ≤ 2 ^ p) : Digits p k := ⟨k, 0, h, by simp⟩

theorem nearest_of_mul_unit {k : ℤ} (h : x = k * unit p x) : nearest p x = x :=
  nearest_eq_of_lt h (by simpa using unit_pos p x)

theorem Digits.nearest_eq (hp : 0 < p) (h : Digits p x) : nearest p x = x := by
  obtain ⟨k, e, hk, rfl⟩ := h
  rcases eq_or_ne ((k : ℚ) * 2 ^ e) 0 with hzero | hx0
  · rw [hzero, nearest_zero]
  have hpow : (0 : ℚ) < 2 ^ e := zpow_pos two_pos _
  have hsize : |(k : ℚ) * 2 ^ e| = |k| * 2 ^ e := by
    rw [abs_mul, abs_of_pos hpow, Int.cast_abs]
  rcases hk.lt_or_eq with hlt | heq
  · have hx : |(k : ℚ) * 2 ^ e| < 2 ^ (p + e) := by
      rw [hsize, zpow_add₀ two_ne_zero, zpow_natCast]
      exact mul_lt_mul_of_pos_right (by exact_mod_cast hlt) hpow
    obtain ⟨k', hk'⟩ := exists_mul_unit hx hx0 k
    exact nearest_of_mul_unit hk'
  · -- the significand `2 ^ p` has a digit too many, but the last one is zero
    obtain ⟨m, rfl⟩ : ∃ m, p = m + 1 := ⟨p - 1, by omega⟩
    have hx : |(k : ℚ) * 2 ^ e| < 2 ^ ((m + 1 : ℕ) + (e + 1)) := by
      rw [hsize, heq, zpow_add₀ two_ne_zero, zpow_natCast, zpow_add_one₀ two_ne_zero]
      have hprod : (0 : ℚ) < 2 ^ (m + 1) * 2 ^ e := by positivity
      push_cast
      linarith
    have heven : ∃ j : ℤ, k = j * 2 := by
      rcases abs_eq (by positivity) |>.mp heq with hpos | hneg
      · exact ⟨2 ^ m, by rw [hpos, pow_succ]⟩
      · exact ⟨-2 ^ m, by rw [hneg, pow_succ]; ring⟩
    obtain ⟨j, rfl⟩ := heven
    have hshift : ((j * 2 : ℤ) : ℚ) * 2 ^ e = j * 2 ^ (e + 1) := by
      rw [zpow_add_one₀ two_ne_zero]
      push_cast
      ring
    obtain ⟨k', hk'⟩ := exists_mul_unit hx hx0 j
    exact nearest_of_mul_unit (hshift.trans hk')

theorem nearest_mono_of_nonneg (hp : 0 < p) (hx : 0 ≤ x) (h : x ≤ y) :
    nearest p x ≤ nearest p y := by
  rcases hx.eq_or_lt with rfl | hx
  · rw [nearest_zero]
    exact nearest_nonneg p h
  have hy := hx.trans_le h
  have hux := unit_pos p x
  have huy := unit_pos p y
  rcases (Int.log_mono_right (b := 2) hx h).lt_or_eq with hlog | hlog
  · -- a power of two lies between them
    have hupper : toEven (x / unit p x) ≤ 2 ^ p := by
      have hlt := lt_unit p x
      rw [abs_of_pos hx] at hlt
      have hround := toEven_mono (q := x / unit p x) (r := ((2 ^ p : ℤ) : ℚ)) (by
        rw [div_le_iff₀ hux]
        push_cast
        exact hlt.le)
      rwa [toEven_intCast] at hround
    have hlower : 2 ^ (p - 1) ≤ toEven (y / unit p y) := by
      have hle := unit_le p hy.ne'
      rw [abs_of_pos hy] at hle
      have hround := toEven_mono (q := ((2 ^ (p - 1) : ℤ) : ℚ)) (r := y / unit p y) (by
        rw [le_div_iff₀ huy]
        push_cast
        obtain ⟨m, rfl⟩ : ∃ m, p = m + 1 := ⟨p - 1, by omega⟩
        rw [pow_succ] at hle
        rw [Nat.succ_sub_one]
        linarith)
      rwa [toEven_intCast] at hround
    have hunits : 2 ^ p * unit p x ≤ 2 ^ (p - 1) * unit p y := by
      obtain ⟨m, rfl⟩ : ∃ m, p = m + 1 := ⟨p - 1, by omega⟩
      have hexp : (2 : ℚ) * unit (m + 1) x ≤ unit (m + 1) y := by
        unfold unit
        rw [← zpow_one_add₀ two_ne_zero, abs_of_pos hx, abs_of_pos hy]
        exact zpow_le_zpow_right₀ one_le_two (by omega)
      rw [pow_succ, mul_assoc]
      exact mul_le_mul_of_nonneg_left hexp (by positivity)
    calc nearest p x
        ≤ 2 ^ p * unit p x := mul_le_mul_of_nonneg_right (by exact_mod_cast hupper) hux.le
      _ ≤ 2 ^ (p - 1) * unit p y := hunits
      _ ≤ nearest p y := mul_le_mul_of_nonneg_right (by exact_mod_cast hlower) huy.le
  · have hsame : unit p x = unit p y := by
      unfold unit
      rw [abs_of_pos hx, abs_of_pos hy, hlog]
    unfold nearest
    rw [hsame]
    have hround : toEven (x / unit p y) ≤ toEven (y / unit p y) :=
      toEven_mono (div_le_div_of_nonneg_right h huy.le)
    exact mul_le_mul_of_nonneg_right (by exact_mod_cast hround) huy.le

theorem nearest_mono (hp : 0 < p) (h : x ≤ y) : nearest p x ≤ nearest p y := by
  rcases le_total 0 x with hx | hx
  · exact nearest_mono_of_nonneg hp hx h
  rcases le_total 0 y with hy | hy
  · have hneg := nearest_nonneg p (neg_nonneg.mpr hx)
    rw [nearest_neg] at hneg
    have hpos := nearest_nonneg p hy
    linarith
  · have hneg := nearest_mono_of_nonneg hp (neg_nonneg.mpr hy) (neg_le_neg h)
    rw [nearest_neg, nearest_neg] at hneg
    linarith

theorem nearest_le (hp : 0 < p) (h : x ≤ y) (hy : Digits p y) : nearest p x ≤ y :=
  (nearest_mono hp h).trans_eq (hy.nearest_eq hp)

theorem le_nearest (hp : 0 < p) (h : x ≤ y) (hx : Digits p x) : x ≤ nearest p y :=
  (hx.nearest_eq hp).symm.trans_le (nearest_mono hp h)

/-- The unit from the binade of the number. -/
theorem unit_eq {e : ℤ} (hlow : 2 ^ e ≤ |x|) (hhigh : |x| < 2 ^ (e + 1)) :
    unit p x = 2 ^ (e + 1 - p) := by
  have hpos : 0 < |x| := (zpow_pos two_pos e).trans_le hlow
  have hge : e ≤ Int.log 2 |x| := by
    rw [← Int.zpow_le_iff_le_log one_lt_two hpos]
    exact_mod_cast hlow
  have hlt : Int.log 2 |x| < e + 1 := by
    rw [← Int.lt_zpow_iff_log_lt one_lt_two hpos]
    exact_mod_cast hhigh
  unfold unit
  congr 1
  omega

/-! ## A percentage of a count -/

/-- The number stands for `c` percent: it is too great by no more than the rounding, and too
small by an eighth of it at most. -/
structure Percent (c : ℕ) (d : ℚ) : Prop where
  le_hundred : c ≤ 100
  upper : d ≤ c / 100 * (1 + 1 / 2 ^ 53)
  lower : c / 100 * (1 - 1 / 2 ^ 56) ≤ d

variable {c m : ℕ} {d : ℚ} {k : ℤ}

namespace Percent

theorem product_le (h : Percent c d) (hm : m ≤ 2 ^ 40) : d * m ≤ c * m / 100 + 1 / 2 ^ 13 := by
  have hmq : (m : ℚ) ≤ 2 ^ 40 := by exact_mod_cast hm
  have hc : (c : ℚ) ≤ 100 := by exact_mod_cast h.le_hundred
  have hprod : (c : ℚ) / 100 * m ≤ 2 ^ 40 := by
    calc (c : ℚ) / 100 * m
        ≤ 1 * m := mul_le_mul_of_nonneg_right (by linarith) (Nat.cast_nonneg m)
      _ ≤ 2 ^ 40 := by linarith
  calc d * m
      ≤ c / 100 * (1 + 1 / 2 ^ 53) * m := mul_le_mul_of_nonneg_right h.upper (Nat.cast_nonneg m)
    _ = c * m / 100 + c / 100 * m / 2 ^ 53 := by ring
    _ ≤ c * m / 100 + 1 / 2 ^ 13 := by linarith

theorem le_product (h : Percent c d) (m : ℕ) :
    (c : ℚ) * m / 100 * (1 - 1 / 2 ^ 56) ≤ d * m := by
  have hlower := mul_le_mul_of_nonneg_right h.lower (Nat.cast_nonneg (α := ℚ) m)
  linarith

/-- Only an exact half can lie between the product and the percentage, and the product is then
rounded to it. -/
theorem half_le_nearest (h : Percent c d) (hm : m ≤ 2 ^ 40) (hk0 : 0 ≤ k) (hk : k ≤ 2 ^ 42)
    (hle : (k : ℚ) / 2 ≤ c * m / 100) : (k : ℚ) / 2 ≤ nearest 53 (d * m) := by
  have hdigits : Digits 53 ((k : ℚ) / 2) := by
    refine ⟨k, -1, ?_, ?_⟩
    · rw [abs_of_nonneg hk0]
      omega
    · rw [zpow_neg_one]
      ring
  rcases le_or_gt ((k : ℚ) / 2) (d * m) with hbelow | habove
  · exact le_nearest (by norm_num) hbelow hdigits
  have hlow := h.le_product m
  have hkq : (k : ℚ) ≤ 2 ^ 42 := by exact_mod_cast hk
  have hk0q : (0 : ℚ) ≤ k := by exact_mod_cast hk0
  have hmq : (m : ℚ) ≤ 2 ^ 40 := by exact_mod_cast hm
  have hc : (c : ℚ) ≤ 100 := by exact_mod_cast h.le_hundred
  have hsize : (c : ℚ) * m / 100 ≤ 2 ^ 40 := by
    have hprod := mul_le_mul hc hmq (Nat.cast_nonneg m) (by norm_num)
    linarith
  have hexact : (c : ℚ) * m / 100 = k / 2 := by
    by_contra hne
    have hlt : (k : ℚ) / 2 < c * m / 100 := lt_of_le_of_ne hle (Ne.symm hne)
    have hint : 50 * k + 1 ≤ c * m := by
      have hq : (50 : ℚ) * k < c * m := by linarith
      exact_mod_cast hq
    have hintq : (50 : ℚ) * k + 1 ≤ c * m := by exact_mod_cast hint
    linarith
  have hpos : (0 : ℚ) < k := by
    by_contra hzero
    have hk0' : (k : ℚ) = 0 := le_antisymm (not_lt.mp hzero) hk0q
    rw [hexact, hk0'] at hlow
    rw [hk0'] at habove
    linarith
  rw [hexact] at hlow
  have hx : |d * m| = d * m := abs_of_nonneg (by linarith)
  have hx0 : d * m ≠ 0 := by
    intro hzero
    rw [hzero] at hlow
    linarith
  obtain ⟨k', hk'⟩ := exists_mul_unit (p := 53) (e := -1) (x := d * m) (by
    rw [hx]
    norm_num
    linarith) hx0 k
  have hhalf : (k : ℚ) / 2 = k' * unit 53 (d * m) := by
    rw [← hk', zpow_neg_one]
    ring
  have hunit := lt_unit 53 (d * m)
  rw [hx] at hunit
  refine (nearest_eq_of_lt hhalf ?_).ge
  rw [abs_lt]
  constructor <;> linarith

theorem nearest_lt_half (h : Percent c d) (hm : m ≤ 2 ^ 40) (hk : k ≤ 2 ^ 42)
    (hlt : (c : ℚ) * m / 100 < k / 2) : nearest 53 (d * m) < k / 2 := by
  have hint : (c : ℤ) * m + 1 ≤ 50 * k := by
    have hq : (c : ℚ) * m < 50 * k := by linarith
    exact_mod_cast hq
  have hintq : (c : ℚ) * m + 1 ≤ 50 * k := by exact_mod_cast hint
  have hpos : 0 < k := by
    have hprod : (0 : ℤ) ≤ c * m := by positivity
    omega
  have hdigits : Digits 53 ((64 * k - 1 : ℤ) / 2 ^ 7 : ℚ) := by
    refine ⟨64 * k - 1, -7, ?_, ?_⟩
    · rw [abs_of_nonneg (by omega)]
      omega
    · rw [zpow_neg]
      norm_num
      ring
  have hbound : d * m ≤ ((64 * k - 1 : ℤ) / 2 ^ 7 : ℚ) := by
    have hprod := h.product_le hm
    push_cast
    linarith
  refine (nearest_le (by norm_num) hbound hdigits).trans_lt ?_
  push_cast
  linarith

theorem nearest_product_nonneg (h : Percent c d) (m : ℕ) : 0 ≤ nearest 53 (d * m) := by
  refine nearest_nonneg 53 (le_trans ?_ (h.le_product m))
  have hprod : (0 : ℚ) ≤ c * m / 100 := by positivity
  linarith

/-- The rounded product has the integer part of the percentage, and so it is with a half added
to both. -/
theorem floor_nearest_add {j : ℕ} (h : Percent c d) (hm : m ≤ 2 ^ 40) (hj : j ≤ 1) :
    ⌊nearest 53 (d * m) + j / 2⌋ = ((c * m + 50 * j) / 100 : ℕ) := by
  have hlow : 100 * ((c * m + 50 * j) / 100) ≤ c * m + 50 * j := Nat.mul_div_le _ _
  have hhigh : c * m + 50 * j < 100 * ((c * m + 50 * j) / 100 + 1) := by omega
  have hsize : (c * m + 50 * j) / 100 ≤ 2 ^ 40 := by
    have hprod := Nat.mul_le_mul h.le_hundred hm
    omega
  generalize (c * m + 50 * j) / 100 = a at *
  have hlowq : (100 : ℚ) * a ≤ c * m + 50 * j := by exact_mod_cast hlow
  have hhighq : (c : ℚ) * m + 50 * j < 100 * (a + 1) := by exact_mod_cast hhigh
  rw [Int.floor_eq_iff]
  push_cast
  constructor
  · rcases lt_or_ge (2 * a) j with hneg | hnonneg
    · have hz := h.nearest_product_nonneg m
      have hnegq : (2 : ℚ) * a ≤ j := by exact_mod_cast hneg.le
      linarith
    · have hhalf := h.half_le_nearest (k := 2 * a - j) hm (by omega) (by omega) (by
        push_cast
        linarith)
      push_cast at hhalf
      linarith
  · have hhalf := h.nearest_lt_half (k := 2 * (a + 1) - j) hm (by omega) (by
      push_cast
      linarith)
    push_cast at hhalf
    linarith

end Percent

/-! The percentages that are used, of 53 digits each. -/

theorem percent_of_nearest {e k : ℤ} (hc : c ≤ 100) (hlow : (2 : ℚ) ^ e ≤ |(c : ℚ) / 100|)
    (hhigh : |(c : ℚ) / 100| < 2 ^ (e + 1))
    (hnear : |(c : ℚ) / 100 - k * 2 ^ (e - 52)| < 2 ^ (e - 53))
    (hlower : (c : ℚ) / 100 * (1 - 1 / 2 ^ 56) ≤ k * 2 ^ (e - 52)) :
    Percent c (nearest 53 (c / 100)) := by
  have hunit : unit 53 ((c : ℚ) / 100) = 2 ^ (e - 52) := by
    rw [unit_eq hlow hhigh]
    congr 1
    push_cast
    ring
  have hvalue : nearest 53 ((c : ℚ) / 100) = k * 2 ^ (e - 52) := by
    refine nearest_eq_of_lt (k := k) (by rw [hunit]) ?_
    rw [hunit]
    calc |(c : ℚ) / 100 - k * 2 ^ (e - 52)|
        < 2 ^ (e - 53) := hnear
      _ = 2 ^ (e - 52) / 2 := by
        rw [show e - 52 = e - 53 + 1 by ring, zpow_add_one₀ two_ne_zero]
        ring
  have herr := abs_nearest_sub_le 53 ((c : ℚ) / 100)
  rw [abs_of_nonneg (by positivity : (0 : ℚ) ≤ c / 100), abs_le] at herr
  exact ⟨hc, by linarith [herr.2], by rw [hvalue]; exact hlower⟩

theorem percent_ten : Percent 10 (nearest 53 (10 / 100)) := by
  have h := percent_of_nearest (c := 10) (e := -4) (k := 7205759403792794) (by norm_num)
  norm_num at h ⊢
  exact h

theorem percent_fifty : Percent 50 (nearest 53 (50 / 100)) := by
  have h := percent_of_nearest (c := 50) (e := -1) (k := 4503599627370496) (by norm_num)
  norm_num at h ⊢
  exact h

theorem percent_ninety : Percent 90 (nearest 53 (90 / 100)) := by
  have h := percent_of_nearest (c := 90) (e := -1) (k := 8106479329266893) (by norm_num)
  norm_num [abs_lt] at h ⊢
  exact h

theorem percent_ninety_nine : Percent 99 (nearest 53 (99 / 100)) := by
  have h := percent_of_nearest (c := 99) (e := -1) (k := 8917127262193582) (by norm_num)
  norm_num [abs_lt] at h ⊢
  exact h

end CppCodes.Library.Rounding
