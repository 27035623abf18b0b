import FairProgram.Proofs.Double.Error
import Mathlib

/-!
# Closest doubles

No whole number is closer to a number than the one that it is rounded to, and no double is closer
than the nearest one (`abs_nearest_sub_le_value`). So whatever is at least as close to a whole number
as a number rounded to it is rounded to it as well (`halfEven_eq_of_closer`).
-/

namespace FairProgram.Double

variable {q r : ℚ} {n : ℤ}

-- ---------------------------------------------------------------------------
-- Whole numbers
-- ---------------------------------------------------------------------------

/-- Whole numbers other than the rounded one are further apart from it than it is from the number
that is rounded. -/
theorem one_le_add_of_ne (hne : n ≠ halfEven q) : 1 ≤ |n - q| + |halfEven q - q| := by
  have hapart : (1 : ℚ) ≤ |(n : ℚ) - halfEven q| := by
    exact_mod_cast Int.one_le_abs (sub_ne_zero.mpr hne)
  rw [abs_sub_comm (halfEven q : ℚ) q]
  exact hapart.trans (abs_sub_le (n : ℚ) q (halfEven q))

theorem abs_halfEven_sub_le_intCast (q : ℚ) (n : ℤ) : |halfEven q - q| ≤ |n - q| := by
  obtain rfl | hne := eq_or_ne n (halfEven q)
  · exact le_rfl
  · linarith [one_le_add_of_ne hne, abs_halfEven_sub_le q]

theorem halfEven_even (h : |halfEven q - q| = 1 / 2) : halfEven q % 2 = 0 := by
  have hfloor := Int.floor_add_fract q
  have hlow := Int.fract_nonneg q
  have hhigh := Int.fract_lt_one q
  unfold halfEven at h ⊢
  split_ifs at h ⊢ with hless hmore
  · rw [abs_sub_comm, abs_of_nonneg (by linarith)] at h
    linarith
  · push_cast at h
    rw [abs_of_nonneg (by linarith)] at h
    linarith
  · omega

/-- What is at least as close to a rounded number as the number that was rounded to it is rounded to
it as well. In the middle between whole numbers both are rounded to the even one. -/
theorem halfEven_eq_of_closer (h : |halfEven q - r| ≤ |halfEven q - q|) :
    halfEven r = halfEven q := by
  by_contra hne
  have hapart := one_le_add_of_ne (q := r) (n := halfEven q) (Ne.symm hne)
  have hq := abs_halfEven_sub_le q
  have hr := abs_halfEven_sub_le r
  have hevenq : halfEven q % 2 = 0 := halfEven_even (by linarith)
  have hevenr : halfEven r % 2 = 0 := halfEven_even (by linarith)
  have hclose : |(halfEven q : ℚ) - halfEven r| ≤ 1 := by
    have htriangle := abs_sub_le (halfEven q : ℚ) r (halfEven r)
    rw [abs_sub_comm r] at htriangle
    linarith
  have hclose : |halfEven q - halfEven r| ≤ 1 := by exact_mod_cast hclose
  rw [abs_le] at hclose
  omega

-- ---------------------------------------------------------------------------
-- Doubles
-- ---------------------------------------------------------------------------

theorem abs_nearest_sub_le_mul (q : ℚ) (n : ℤ) :
    |nearest q - q| ≤ |n * 2 ^ lastPlace q - q| := by
  have hplace : (0 : ℚ) < 2 ^ lastPlace q := by positivity
  have hscaled (m : ℚ) : |m * 2 ^ lastPlace q - q| = |m - q / 2 ^ lastPlace q| * 2 ^ lastPlace q := by
    rw [← abs_of_pos hplace, ← abs_mul, abs_of_pos hplace, sub_mul, div_mul_cancel₀ q hplace.ne']
  rw [nearest, hscaled, hscaled]
  exact mul_le_mul_of_nonneg_right (abs_halfEven_sub_le_intCast _ n) hplace.le

theorem abs_nearest_sub_le_grid (hq : 0 < q) {m e : ℤ} (hm : |m| < 2 ^ 53) (he : -1074 ≤ e) :
    |nearest q - q| ≤ |m * 2 ^ e - q| := by
  obtain hle | hlt := le_or_gt (lastPlace q) e
  · -- The double is a multiple of the last place.
    obtain ⟨k, hk⟩ := Int.le.dest hle
    have hmul : (m : ℚ) * 2 ^ e = (m * 2 ^ k : ℤ) * 2 ^ lastPlace q := by
      rw [← hk, zpow_add₀ two_ne_zero, zpow_natCast]
      push_cast
      ring
    rw [hmul]
    exact abs_nearest_sub_le_mul q _
  · -- The double is less than the power of two below the number, which is such a multiple.
    have hpower : (2 : ℚ) ^ (lastPlace q + 52) ≤ q := zpow_le_of_lastPlace hq (by omega)
    have hm : |(m : ℚ)| < 2 ^ 53 := by exact_mod_cast hm
    have hsmall : (m : ℚ) * 2 ^ e ≤ 2 ^ (lastPlace q + 52) := by
      calc (m : ℚ) * 2 ^ e ≤ 2 ^ 53 * 2 ^ e :=
            mul_le_mul_of_nonneg_right ((le_abs_self _).trans hm.le) (by positivity)
        _ = 2 ^ (53 + e) := by rw [zpow_add₀ two_ne_zero]; rfl
        _ ≤ 2 ^ (lastPlace q + 52) := zpow_le_zpow_right₀ one_le_two (by omega)
    have hcast : ((2 ^ 52 : ℤ) : ℚ) * 2 ^ lastPlace q = 2 ^ (lastPlace q + 52) := by
      rw [zpow_add₀ two_ne_zero, mul_comm]
      norm_num
    calc |nearest q - q| ≤ |(2 ^ 52 : ℤ) * 2 ^ lastPlace q - q| := abs_nearest_sub_le_mul q _
      _ = q - 2 ^ (lastPlace q + 52) := by
          rw [hcast, abs_sub_comm, abs_of_nonneg (sub_nonneg.mpr hpower)]
      _ ≤ q - m * 2 ^ e := sub_le_sub_left hsmall q
      _ = |m * 2 ^ e - q| := by
          rw [abs_sub_comm, abs_of_nonneg (sub_nonneg.mpr (hsmall.trans hpower))]

/-- No double is closer to a number than the nearest one. -/
theorem abs_nearest_sub_le_value (q : ℚ) (x : Float) : |nearest q - q| ≤ |value x - q| := by
  obtain ⟨m, e, hm, he, -, hx⟩ := value_mem_grid x
  rw [hx]
  obtain hq | rfl | hq := lt_trichotomy 0 q
  · exact abs_nearest_sub_le_grid hq hm he
  · rw [nearest_zero, sub_zero, abs_zero]
    exact abs_nonneg _
  · have h := abs_nearest_sub_le_grid (neg_pos.mpr hq) ((abs_neg m).trans_lt hm) he
    rw [nearest_neg, Int.cast_neg, neg_mul, neg_sub_neg, neg_sub_neg] at h
    rwa [abs_sub_comm, abs_sub_comm _ q]

end FairProgram.Double
