import FairProgram.Proofs.Double.Arithmetic
import Mathlib

/-!
# Errors of rounding

Rounding errs by half of the last place at most, which is at most the 53rd binary part of a number
that has all 53 places (`abs_nearest_sub_le`).
-/

namespace FairProgram.Double

variable {q : ℚ}

theorem abs_halfEven_sub_le (q : ℚ) : |halfEven q - q| ≤ 1 / 2 := by
  have hfloor := Int.floor_add_fract q
  have := Int.fract_nonneg q
  have := Int.fract_lt_one q
  rw [abs_le]
  unfold halfEven
  split_ifs with hlow hhigh
  · constructor <;> linarith
  · push_cast
    constructor <;> linarith
  · obtain heven | hodd := Int.emod_two_eq_zero_or_one ⌊q⌋
    · rw [heven, add_zero]
      constructor <;> linarith
    · rw [hodd]
      push_cast
      constructor <;> linarith

/-- The part of a number that a rounding error is at most, where no place is missing. -/
def roundoff : ℚ := 2 ^ (-53 : ℤ)

theorem roundoff_pos : 0 < roundoff := by
  unfold roundoff
  positivity

theorem roundoff_lt_half : roundoff < 1 / 2 := by
  norm_num [roundoff]

theorem abs_nearest_sub_le_half (q : ℚ) : |nearest q - q| ≤ 2 ^ lastPlace q / 2 := by
  have hplace : (0 : ℚ) < 2 ^ lastPlace q := by positivity
  have hscaled : nearest q - q =
      (halfEven (q / 2 ^ lastPlace q) - q / 2 ^ lastPlace q) * 2 ^ lastPlace q := by
    rw [nearest, sub_mul, div_mul_cancel₀ q hplace.ne']
  have herror := abs_halfEven_sub_le (q / 2 ^ lastPlace q)
  rw [hscaled, abs_mul, abs_of_pos hplace]
  linarith [mul_le_mul_of_nonneg_right herror hplace.le]

/-- Half of the last place of a number that misses none of its 53 places. -/
theorem half_lastPlace_le (h : 2 ^ (-1022 : ℤ) ≤ q) : 2 ^ lastPlace q / 2 ≤ q * roundoff := by
  have hq : 0 < q := (show (0 : ℚ) < 2 ^ (-1022 : ℤ) by positivity).trans_le h
  have hlog : -1022 ≤ Int.log 2 q := (Int.zpow_le_iff_le_log one_lt_two hq).mp (by exact_mod_cast h)
  have hplace : lastPlace q = Int.log 2 q - 52 := by
    rw [lastPlace, abs_of_pos hq]
    omega
  have hle : (2 : ℚ) ^ Int.log 2 q ≤ q := by exact_mod_cast Int.zpow_log_le_self one_lt_two hq
  have hhalf : (2 : ℚ) ^ lastPlace q / 2 = 2 ^ Int.log 2 q * roundoff := by
    rw [hplace, roundoff, zpow_sub₀ two_ne_zero]
    norm_num
    ring
  rw [hhalf]
  exact mul_le_mul_of_nonneg_right hle (by unfold roundoff; positivity)

theorem abs_nearest_sub_le (h : 2 ^ (-1022 : ℤ) ≤ q) : |nearest q - q| ≤ q * roundoff :=
  (abs_nearest_sub_le_half q).trans (half_lastPlace_le h)

theorem nearest_le (h : 2 ^ (-1022 : ℤ) ≤ q) : nearest q ≤ q * (1 + roundoff) := by
  linarith [(abs_le.mp (abs_nearest_sub_le h)).2]

theorem le_nearest (h : 2 ^ (-1022 : ℤ) ≤ q) : q * (1 - roundoff) ≤ nearest q := by
  linarith [(abs_le.mp (abs_nearest_sub_le h)).1]

section
variable {x : Float}

theorem Rounds.value_eq (h : Rounds x q) (hf : x.isFinite = true) : value x = nearest q := by
  unfold Rounds at h
  split at h
  · exact h.2
  · have hf : x.toModel.unpack.isFinite = true := hf
    rw [h] at hf
    cases hf

theorem Rounds.value_le (h : Rounds x q) (hf : x.isFinite = true) (hq : 2 ^ (-1022 : ℤ) ≤ q) :
    value x ≤ q * (1 + roundoff) :=
  h.value_eq hf ▸ nearest_le hq

theorem Rounds.le_value (h : Rounds x q) (hf : x.isFinite = true) (hq : 2 ^ (-1022 : ℤ) ≤ q) :
    q * (1 - roundoff) ≤ value x :=
  h.value_eq hf ▸ le_nearest hq

end

end FairProgram.Double
