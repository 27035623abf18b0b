import FairProgram.Proofs.Double.Closest
import FairProgram.Proofs.Double.Whole
import Mathlib

/-!
# Decimal fractions as doubles

Decimal fractions are read as the nearest doubles, whatever the number of their places
(`ofScientific_fraction_rounds`).
-/

namespace FairProgram.Double

open Float.Model Float.Model.UnpackedFloat

variable {x : Float} {q : ℚ}

/-- Numbers below half of the least double are rounded to zero. -/
theorem nearest_eq_zero (h : |q| < 2 ^ (-1075 : ℤ)) : nearest q = 0 := by
  have hplace : (0 : ℚ) < 2 ^ lastPlace q := by positivity
  have hhalf : |q / 2 ^ lastPlace q| < 1 / 2 := by
    rw [abs_div, abs_of_pos hplace, div_lt_iff₀ hplace]
    calc |q| < 2 ^ (-1075 : ℤ) := h
      _ = 1 / 2 * 2 ^ (-1074 : ℤ) := by
          rw [show (-1075 : ℤ) = -1 + -1074 by norm_num, zpow_add₀ two_ne_zero]
          norm_num
      _ ≤ 1 / 2 * 2 ^ lastPlace q :=
          mul_le_mul_of_nonneg_left
            (zpow_le_zpow_right₀ one_le_two (neg_1074_le_lastPlace q)) (by norm_num)
  have hzero := abs_halfEven_sub_le_intCast (q / 2 ^ lastPlace q) 0
  rw [Int.cast_zero, zero_sub, abs_neg] at hzero
  have hlt : |(halfEven (q / 2 ^ lastPlace q) : ℚ)| < 1 := by
    linarith [abs_sub_abs_le_abs_sub (halfEven (q / 2 ^ lastPlace q) : ℚ) (q / 2 ^ lastPlace q)]
  have hwhole : halfEven (q / 2 ^ lastPlace q) = 0 :=
    Int.abs_lt_one_iff.mp (by exact_mod_cast hlt)
  rw [nearest, hwhole, Int.cast_zero, zero_mul]

theorem rounds_of_small {sign : Sign} (h : x.toModel.unpack = .zero sign)
    (hq : |q| < 2 ^ (-1075 : ℤ)) : Rounds x q := by
  have hx := rounds_of_zero h
  rw [Rounds, nearest_zero, abs_zero, if_pos (by positivity)] at hx
  rwa [Rounds, nearest_eq_zero hq, abs_zero, if_pos (by positivity)]

/-- A decimal fraction is read as the nearest double. -/
theorem ofScientific_fraction_rounds (n e : Nat) :
    Rounds (Float.ofScientific n true e) (n / 10 ^ e) := by
  by_cases hfast : n < 2 ^ 53 ∧ e ≤ 22
  · obtain ⟨hfinite, hvalue⟩ := value_powerOfTen (e := e) (by omega)
    obtain ⟨hfinite', hvalue'⟩ := value_toUInt64 hfast.1
    have := div_rounds hfinite' hfinite (by rw [hvalue]; positivity)
    rw [hvalue, hvalue'] at this
    rwa [Float.ofScientific, dif_pos hfast, if_pos rfl]
  obtain rfl | he := Nat.eq_zero_or_pos e
  · have := ofScientific_rounds n 0
    rw [Float.ofScientific, dif_neg hfast, pow_zero, mul_one] at this
    rwa [Float.ofScientific, dif_neg hfast, pow_zero, div_one]
  rw [Float.ofScientific, dif_neg hfast]
  show Rounds ⟨Float.Model.pack (UnpackedFloat.ofScientific .binary64 n (Int.negOfNat e))⟩ _
  rw [Int.negOfNat_eq, UnpackedFloat.ofScientific]
  split
  · rename_i hzero
    rw [hzero, Nat.cast_zero, zero_div]
    exact rounds_of_zero (unpack_pack_zero .positive)
  rename_i hne
  have hpos : 0 < n := Nat.pos_of_ne_zero hne
  rw [if_neg (by simp)]
  split
  · rename_i hsmall
    have hplaces : 2048 + n.log2 < e := by
      simp at hsmall
      omega
    refine rounds_of_small (unpack_pack_zero .positive) ?_
    rw [abs_of_nonneg (by positivity), div_lt_iff₀ (by positivity)]
    calc (n : ℚ) < 2 ^ (n.log2 + 1) := by exact_mod_cast Nat.lt_log2_self
      _ ≤ 2 ^ (-1075 + e : ℤ) := by
          rw [← zpow_natCast]
          exact zpow_le_zpow_right₀ one_le_two (by push_cast; omega)
      _ = 2 ^ (-1075 : ℤ) * 2 ^ e := by rw [zpow_add₀ two_ne_zero, zpow_natCast]
      _ ≤ 2 ^ (-1075 : ℤ) * 10 ^ e :=
          mul_le_mul_of_nonneg_left (pow_le_pow_left₀ zero_le_two (by norm_num) e) (by positivity)
  · rw [if_neg (by simp; omega)]
    have hten : 0 < 10 ^ (-(-(e : ℤ))).toNat := by positivity
    have hvalue : (n : ℚ) / 10 ^ e = signed .positive
        (n * 2 ^ (0 : ℤ) / ((10 ^ (-(-(e : ℤ))).toNat : ℕ) * 2 ^ (0 : ℤ))) := by
      simp [signed]
    rw [hvalue]
    exact (divCore_isNearest .positive hpos hten rfl).rounds (by positivity) rfl

end FairProgram.Double
