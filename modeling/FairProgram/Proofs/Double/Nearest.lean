import Mathlib

/-!
# The nearest double

Rounding of rational numbers to the values that doubles have. Places of equal value are rounded to
whole numbers, a half going to the even neighbour; above `2 ^ 1024` the exponents simply go on.
Rounding is monotone (`nearest_mono`), odd (`nearest_neg`), and keeps whatever has few enough places
(`nearest_mul_zpow`).
-/

namespace FairProgram.Double

-- ---------------------------------------------------------------------------
-- Whole numbers
-- ---------------------------------------------------------------------------

/-- The nearest whole number, a half going to the even neighbour. -/
def halfEven (q : ℚ) : ℤ :=
  if 2 * Int.fract q < 1 then ⌊q⌋
  else if 1 < 2 * Int.fract q then ⌊q⌋ + 1
  else ⌊q⌋ + ⌊q⌋ % 2

@[simp] theorem halfEven_intCast (n : ℤ) : halfEven n = n := by
  simp [halfEven]

theorem floor_le_halfEven (q : ℚ) : ⌊q⌋ ≤ halfEven q := by
  unfold halfEven
  split_ifs <;> omega

theorem halfEven_le_floor_add_one (q : ℚ) : halfEven q ≤ ⌊q⌋ + 1 := by
  unfold halfEven
  split_ifs <;> omega

theorem halfEven_mono : Monotone halfEven := by
  intro q r hle
  obtain hlt | heq := lt_or_eq_of_le (Int.floor_le_floor hle)
  · calc halfEven q ≤ ⌊q⌋ + 1 := halfEven_le_floor_add_one q
      _ ≤ ⌊r⌋ := hlt
      _ ≤ halfEven r := floor_le_halfEven r
  · have hfract : Int.fract q ≤ Int.fract r := by
      rw [Int.fract, Int.fract, heq]
      linarith
    unfold halfEven
    rw [heq]
    split_ifs <;> first | omega | linarith

theorem halfEven_le {q : ℚ} {n : ℤ} (h : q ≤ n) : halfEven q ≤ n :=
  (halfEven_mono h).trans_eq (halfEven_intCast n)

theorem le_halfEven {q : ℚ} {n : ℤ} (h : n ≤ q) : n ≤ halfEven q :=
  (halfEven_intCast n).symm.trans_le (halfEven_mono h)

theorem halfEven_neg (q : ℚ) : halfEven (-q) = -halfEven q := by
  by_cases hq : Int.fract q = 0
  · obtain ⟨n, rfl⟩ : ∃ n : ℤ, (n : ℚ) = q := ⟨⌊q⌋, by rw [← Int.self_sub_fract, hq, sub_zero]⟩
    rw [← Int.cast_neg, halfEven_intCast, halfEven_intCast]
  · have hfloor : ⌊-q⌋ = -⌊q⌋ - 1 := by
      rw [Int.floor_eq_iff]
      have := Int.floor_add_fract q
      have := Int.fract_lt_one q
      have := (Int.fract_nonneg q).lt_of_ne' hq
      push_cast
      constructor <;> linarith
    unfold halfEven
    rw [Int.fract_neg hq, hfloor]
    split_ifs <;> first | omega | linarith

-- ---------------------------------------------------------------------------
-- Places
-- ---------------------------------------------------------------------------

/-- The exponent of the last of the 53 binary places that a double near a number has. -/
def lastPlace (q : ℚ) : ℤ :=
  max (Int.log 2 |q| - 52) (-1074)

def nearest (q : ℚ) : ℚ :=
  halfEven (q / 2 ^ lastPlace q) * 2 ^ lastPlace q

variable {q r : ℚ}

theorem neg_1074_le_lastPlace (q : ℚ) : -1074 ≤ lastPlace q :=
  le_max_right _ _

@[simp] theorem lastPlace_neg (q : ℚ) : lastPlace (-q) = lastPlace q := by
  simp [lastPlace]

/-- Bounds between powers of two tell the exponent of a number. -/
theorem log_eq {e : ℤ} (hle : (2 : ℚ) ^ e ≤ q) (hlt : q < 2 ^ (e + 1)) : Int.log 2 q = e := by
  have hq : 0 < q := lt_of_lt_of_le (by positivity) hle
  have h1 := (Int.zpow_le_iff_le_log one_lt_two hq).mp (by exact_mod_cast hle)
  have h2 := (Int.lt_zpow_iff_log_lt one_lt_two hq).mp (by exact_mod_cast hlt)
  omega

theorem lastPlace_eq {e : ℤ} (hle : (2 : ℚ) ^ e ≤ q) (hlt : q < 2 ^ (e + 1)) :
    lastPlace q = max (e - 52) (-1074) := by
  have hq : 0 < q := lt_of_lt_of_le (by positivity) hle
  rw [lastPlace, abs_of_pos hq, log_eq hle hlt]

theorem lastPlace_mono (hq : 0 < q) (h : q ≤ r) : lastPlace q ≤ lastPlace r := by
  have hlog : Int.log 2 |q| ≤ Int.log 2 |r| := by
    rw [abs_of_pos hq, abs_of_pos (hq.trans_le h)]
    exact Int.log_mono_right hq h
  unfold lastPlace
  omega

theorem lastPlace_le {e : ℤ} (he : -1074 ≤ e) (hq : q ≠ 0) (h : |q| < 2 ^ (e + 53)) :
    lastPlace q ≤ e := by
  have hlog := (Int.lt_zpow_iff_log_lt one_lt_two (abs_pos.mpr hq)).mp (by exact_mod_cast h)
  unfold lastPlace
  omega

theorem abs_lt_lastPlace (q : ℚ) : |q| < 2 ^ (lastPlace q + 53) := by
  have hlt : |q| < (2 : ℚ) ^ (Int.log 2 |q| + 1) := by
    exact_mod_cast Int.lt_zpow_succ_log_self one_lt_two |q|
  have hle : Int.log 2 |q| - 52 ≤ lastPlace q := le_max_left _ _
  exact hlt.trans_le (zpow_le_zpow_right₀ one_le_two (by omega))

/-- All 53 places are used unless the last one is the least that there is. -/
theorem zpow_le_of_lastPlace (hq : 0 < q) (h : -1074 < lastPlace q) :
    2 ^ (lastPlace q + 52) ≤ q := by
  have hlog : lastPlace q + 52 = Int.log 2 q := by
    unfold lastPlace at h ⊢
    rw [abs_of_pos hq] at h ⊢
    omega
  rw [hlog]
  exact_mod_cast Int.zpow_log_le_self one_lt_two hq

-- ---------------------------------------------------------------------------
-- Rounding
-- ---------------------------------------------------------------------------

@[simp] theorem nearest_zero : nearest 0 = 0 := by
  rw [nearest, zero_div, ← Int.cast_zero, halfEven_intCast, Int.cast_zero, zero_mul]

theorem nearest_neg (q : ℚ) : nearest (-q) = -nearest q := by
  rw [nearest, nearest, lastPlace_neg, neg_div, halfEven_neg, Int.cast_neg, neg_mul]

theorem nearest_nonneg (hq : 0 ≤ q) : 0 ≤ nearest q := by
  have hplaces : 0 ≤ halfEven (q / 2 ^ lastPlace q) :=
    le_halfEven (by push_cast; exact div_nonneg hq (by positivity))
  exact mul_nonneg (by exact_mod_cast hplaces) (by positivity)

/-- Whole places of a number, at most as many as there are. -/
theorem halfEven_places_le (q : ℚ) : halfEven (q / 2 ^ lastPlace q) ≤ 2 ^ 53 := by
  apply halfEven_le
  rw [div_le_iff₀ (by positivity)]
  have := (le_abs_self q).trans (abs_lt_lastPlace q).le
  rw [zpow_add₀ two_ne_zero] at this
  push_cast
  linarith

theorem le_halfEven_places (hq : 0 < q) (h : -1074 < lastPlace q) :
    2 ^ 52 ≤ halfEven (q / 2 ^ lastPlace q) := by
  apply le_halfEven
  rw [le_div_iff₀ (by positivity)]
  have := zpow_le_of_lastPlace hq h
  rw [zpow_add₀ two_ne_zero] at this
  push_cast
  linarith

theorem nearest_mono_of_pos (hq : 0 < q) (h : q ≤ r) : nearest q ≤ nearest r := by
  obtain hlt | heq := lt_or_eq_of_le (lastPlace_mono hq h)
  · -- What has fewer places before them stays below the power of two where they end.
    have hplaces : (halfEven (q / 2 ^ lastPlace q) : ℚ) ≤ 2 ^ 53 := by
      exact_mod_cast halfEven_places_le q
    have hplaces' : (2 : ℚ) ^ 52 ≤ halfEven (r / 2 ^ lastPlace r) := by
      exact_mod_cast le_halfEven_places (hq.trans_le h) (by have := neg_1074_le_lastPlace q; omega)
    calc nearest q ≤ 2 ^ 53 * 2 ^ lastPlace q := by
          exact mul_le_mul_of_nonneg_right hplaces (by positivity)
      _ = 2 ^ (lastPlace q + 53) := by rw [zpow_add₀ two_ne_zero, mul_comm]; norm_cast
      _ ≤ 2 ^ (lastPlace r + 52) := zpow_le_zpow_right₀ one_le_two (by omega)
      _ = 2 ^ 52 * 2 ^ lastPlace r := by rw [zpow_add₀ two_ne_zero, mul_comm]; norm_cast
      _ ≤ nearest r := mul_le_mul_of_nonneg_right hplaces' (by positivity)
  · rw [nearest, nearest, heq]
    have hplaces := halfEven_mono (div_le_div_of_nonneg_right h
      (zpow_nonneg zero_le_two (lastPlace r)))
    exact mul_le_mul_of_nonneg_right (by exact_mod_cast hplaces) (by positivity)

theorem nearest_mono : Monotone nearest := by
  intro q r h
  obtain hq | rfl | hq := lt_trichotomy 0 q
  · exact nearest_mono_of_pos hq h
  · rw [nearest_zero]
    exact nearest_nonneg h
  · obtain hr | hr := lt_or_ge r 0
    · have := nearest_mono_of_pos (neg_pos.mpr hr) (neg_le_neg h)
      rw [nearest_neg, nearest_neg] at this
      exact neg_le_neg_iff.mp this
    · have := nearest_nonneg (neg_nonneg.mpr hq.le)
      rw [nearest_neg] at this
      exact (neg_nonneg.mp this).trans (nearest_nonneg hr)

/-- Numbers of at most 53 places, none of them too small, are doubles already. -/
theorem nearest_mul_zpow {m e : ℤ} (hm : |m| < 2 ^ 53) (he : -1074 ≤ e) :
    nearest (m * 2 ^ e) = m * 2 ^ e := by
  by_cases hzero : m = 0
  · simp [hzero]
  have hplace : lastPlace (m * 2 ^ e) ≤ e := by
    refine lastPlace_le he (mul_ne_zero (by exact_mod_cast hzero) (by positivity)) ?_
    have hm : |(m : ℚ)| < 2 ^ 53 := by exact_mod_cast hm
    rw [abs_mul, abs_of_pos (show (0 : ℚ) < 2 ^ e by positivity), zpow_add₀ two_ne_zero, mul_comm]
    exact mul_lt_mul_of_pos_left (by exact_mod_cast hm) (by positivity)
  obtain ⟨k, hk⟩ := Int.le.dest hplace
  have hwhole : (m : ℚ) * 2 ^ e / 2 ^ lastPlace (m * 2 ^ e) = ((m * 2 ^ k : ℤ) : ℚ) := by
    rw [div_eq_iff (by positivity)]
    push_cast
    rw [mul_assoc, ← zpow_natCast, ← zpow_add₀ two_ne_zero, add_comm, hk]
  rw [nearest, hwhole, halfEven_intCast, ← hwhole, div_mul_cancel₀ _ (by positivity)]

end FairProgram.Double
