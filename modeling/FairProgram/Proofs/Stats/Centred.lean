import FairProgram.Proofs.Stats.Around
import Mathlib

/-!
# The bucket around one value

The distribution function of a single bucket around a value is a half there if the value is in the
middle of the bucket as doubles tell it (`cdfAround_of_centred`). That is so wherever the ends of
the bucket are exact (`Centred.of_exact`), and rounding puts a value up to `2 ^ 20` off the middle
by little more than `2 ^ (-32)` (`cdfAround_near`).
-/

namespace FairProgram.Stats

open Double Scalar

variable {v : Float}

-- ---------------------------------------------------------------------------
-- Ends of the bucket
-- ---------------------------------------------------------------------------

theorem bounds_around (hv : v.isFinite = true) : (v - 0.5).isFinite = true ∧
    (v + 0.5).isFinite = true ∧ (v + 0.5 - (v - 0.5)).isFinite = true := by
  obtain ⟨hdown, hup, -, hwidth⟩ := halves_bounds hv hv rfl
  rw [half_eq] at hdown hup hwidth
  exact ⟨hdown, hup, hwidth⟩

theorem eq_half_of_sub (hv : v.isFinite = true) (h : value (v - 0.5) = 0) : v = 0.5 := by
  rw [(sub_rounds hv isFinite_half).value_eq (bounds_around hv).1] at h
  have hsame : value v = value 0.5 := by
    refine le_antisymm (not_lt.mp fun hlt => (nearest_sub_pos hlt).ne' h) (not_lt.mp fun hlt => ?_)
    have hpos := nearest_sub_pos hlt
    rw [← neg_sub, nearest_neg, h, neg_zero] at hpos
    exact lt_irrefl 0 hpos
  exact eq_of_value hv isFinite_half hsame (by rw [hsame, value_half_eq]; norm_num)

/-- The first edge is the lower end of the span, since nothing is added to it. -/
theorem edgesAround_one (hv : v.isFinite = true) : edgesAround v 1 = [v - 0.5, v + 0.5] := by
  by_cases hzero : value (v - 0.5) = 0
  · rw [eq_half_of_sub hv hzero]
    decide +kernel
  obtain ⟨hdown, hup, hwidth⟩ := bounds_around hv
  have hstep := (div_rows_bounded Nat.one_pos (by decide) hwidth).1
  have hmul := mul_rounds hstep isFinite_zero
  rw [value_zero, mul_zero] at hmul
  obtain ⟨hmultiple, hmultipleZero⟩ := hmul.of_zero
  have hadd := add_rounds hdown hmultiple
  rw [hmultipleZero, add_zero] at hadd
  exact congrArg (· :: [v + 0.5]) (hadd.eq_of_ne_zero hdown hzero)

theorem bin?_around (hv : v.isFinite = true) :
    Histogram.bin? [v - 0.5, v + 0.5] v = some 0 := by
  obtain ⟨hdown, hup, -⟩ := bounds_around hv
  have hlow : v - 0.5 ≤ v := by
    refine (sub_rounds hv isFinite_half).le (rounds_value hv) ?_
    rw [value_half_eq]
    linarith
  have hhigh : v ≤ v + 0.5 := by
    refine (rounds_value hv).le (add_rounds hv isFinite_half) ?_
    rw [value_half_eq]
    linarith
  simp [Histogram.bin?, Histogram.locate, hlow, hhigh]

theorem cdfAround_one (hv : v.isFinite = true) : cdfAround v 1 =
    if v ≤ v - 0.5 then 0 else if v + 0.5 ≤ v then 0 + 1
      else 0 + (v - (v - 0.5)) / (v + 0.5 - (v - 0.5)) * 1 := by
  have hmasses : pointMasses [v - 0.5, v + 0.5] v = [1] := by
    simp [pointMasses, bin?_around hv]
  rw [cdfAround, edgesAround_one hv, hmasses]
  rfl

-- ---------------------------------------------------------------------------
-- Values in the middle
-- ---------------------------------------------------------------------------

/-- A value in the middle of the bucket around it, as doubles tell it. -/
structure Centred (v : Float) : Prop where
  above : v - 0.5 < v
  below : v < v + 0.5
  half : (v - (v - 0.5)) / (v + 0.5 - (v - 0.5)) = 0.5

theorem Centred.small (h : Centred v) (hv : v.isFinite = true) : |value v| < 2 ^ (54 : ℤ) := by
  by_contra hlarge
  have habove := h.above
  rw [(add_half_of_large hv (not_lt.mp hlarge)).1] at habove
  exact lt_irrefl _ (lt_iff.mp habove).2.2

/-- A value whose bucket has exact ends is in the middle. -/
theorem Centred.of_exact (hv : v.isFinite = true) (hdown : value (v - 0.5) = value v - 1 / 2)
    (hup : value (v + 0.5) = value v + 1 / 2) : Centred v := by
  obtain ⟨hlow, hhigh, -⟩ := bounds_around hv
  have hpart := sub_rounds hv hlow
  have hwhole := sub_rounds hhigh hlow
  rw [hdown, sub_sub_cancel, ← value_half_eq] at hpart
  rw [hup, hdown, add_sub_sub_cancel, add_halves] at hwhole
  obtain ⟨hpartFinite, hpartValue⟩ := hpart.of_value
  obtain ⟨hwholeFinite, hwholeValue⟩ := hwhole.of_one
  have hdiv := div_rounds hpartFinite hwholeFinite (by rw [hwholeValue]; exact one_ne_zero)
  rw [hpartValue, hwholeValue, div_one] at hdiv
  refine ⟨?_, ?_, hdiv.eq_of_ne_zero isFinite_half (by rw [value_half_eq]; norm_num)⟩
  · rw [lt_iff_value hlow hv]
    linarith
  · rw [lt_iff_value hv hhigh]
    linarith

theorem Centred.of_halves {m : ℤ} (hv : v.isFinite = true) (h : value v = m * 2 ^ (-1 : ℤ))
    (hm : |m| < 2 ^ 53 - 1) : Centred v := by
  obtain ⟨hlow, hhigh, -⟩ := bounds_around hv
  obtain ⟨hge, hle⟩ := abs_lt.mp hm
  have hhalf : (1 / 2 : ℚ) = 2 ^ (-1 : ℤ) := by norm_num
  refine of_exact hv ?_ ?_
  · have hexact := nearest_mul_zpow (m := m - 1) (e := -1) (abs_lt.mpr ⟨by omega, by omega⟩)
      (by norm_num)
    rw [Int.cast_sub, Int.cast_one, sub_one_mul, ← h, ← hhalf] at hexact
    rw [(sub_rounds hv isFinite_half).value_eq hlow, value_half_eq, hexact]
  · have hexact := nearest_mul_zpow (m := m + 1) (e := -1) (abs_lt.mpr ⟨by omega, by omega⟩)
      (by norm_num)
    rw [Int.cast_add, Int.cast_one, add_one_mul, ← h, ← hhalf] at hexact
    rw [(add_rounds hv isFinite_half).value_eq hhigh, value_half_eq, hexact]

theorem cdfAround_of_centred (hv : v.isFinite = true) (h : Centred v) : cdfAround v 1 = 0.5 := by
  rw [cdfAround_one hv, if_neg (not_le_of_lt h.above), if_neg (not_le_of_lt h.below), h.half]
  decide +kernel

-- ---------------------------------------------------------------------------
-- Values off the middle
-- ---------------------------------------------------------------------------

theorem quotient_near {part whole error : ℚ} (hpart : |part - 1 / 2| ≤ error)
    (hwhole : |whole - 1| ≤ 2 * error) (hsmall : error ≤ 1 / 8) :
    |part / whole - 1 / 2| ≤ 2 * error * (1 + 4 * error) := by
  obtain ⟨hpartGe, hpartLe⟩ := abs_le.mp hpart
  obtain ⟨hwholeGe, hwholeLe⟩ := abs_le.mp hwhole
  have herror : 0 ≤ error := (abs_nonneg _).trans hpart
  have hpos : 0 < whole := by linarith
  have hdifference : part / whole - 1 / 2 = (part - whole / 2) / whole := by
    field_simp
  rw [hdifference, abs_div, abs_of_pos hpos, div_le_iff₀ hpos]
  have hnumerator : |part - whole / 2| ≤ 2 * error := abs_le.mpr ⟨by linarith, by linarith⟩
  have hscaled : 1 ≤ (1 + 4 * error) * whole := by nlinarith
  calc |part - whole / 2| ≤ 2 * error * 1 := by linarith
    _ ≤ 2 * error * ((1 + 4 * error) * whole) := by gcongr
    _ = 2 * error * (1 + 4 * error) * whole := (mul_assoc _ _ _).symm

/-- Rounding moves the ends of the bucket by `2 ^ (-33)` at most. -/
theorem fraction_near (hv : v.isFinite = true) (hsmall : |value v| ≤ 2 ^ 20) :
    Near (v - (v - 0.5)) (1 / 2) (2 ^ (-33 : ℤ) + Near.unit) ∧
      Near (v + 0.5 - (v - 0.5)) 1 (2 * 2 ^ (-33 : ℤ) + Near.unit) := by
  obtain ⟨hdown, hup, hwidth⟩ := bounds_around hv
  have hlower := sub_rounds hv isFinite_half
  have hupper := add_rounds hv isFinite_half
  rw [value_half_eq] at hlower hupper
  obtain ⟨hge, hle⟩ := abs_le.mp hsmall
  have hlowerLt : |value v - 1 / 2| < 2 ^ (20 + 1 : ℤ) := by
    norm_num at hge hle ⊢
    exact abs_lt.mpr ⟨by linarith, by linarith⟩
  have hupperLt : |value v + 1 / 2| < 2 ^ (20 + 1 : ℤ) := by
    norm_num at hge hle ⊢
    exact abs_lt.mpr ⟨by linarith, by linarith⟩
  have hlowerNear := (hlower.near_zpow (e := 20) (by norm_num) (by norm_num) hlowerLt).2
  have hupperNear := (hupper.near_zpow (e := 20) (by norm_num) (by norm_num) hupperLt).2
  have herror : (2 : ℚ) ^ (-33 : ℤ) ≤ 1 := by norm_num
  rw [show (20 - 53 : ℤ) = -33 by norm_num] at hlowerNear hupperNear
  generalize (2 : ℚ) ^ (-33 : ℤ) = error at hlowerNear hupperNear herror ⊢
  obtain ⟨hlowerGe, hlowerLe⟩ := abs_le.mp hlowerNear
  obtain ⟨hupperGe, hupperLe⟩ := abs_le.mp hupperNear
  constructor
  · exact Near.trans (sub_rounds hv hdown) (abs_le.mpr ⟨by linarith, by linarith⟩)
      (abs_le.mpr ⟨by linarith, by linarith⟩)
  · exact Near.trans (sub_rounds hup hdown) (abs_le.mpr ⟨by linarith, by linarith⟩)
      (abs_le.mpr ⟨by linarith, by linarith⟩)

theorem cdfAround_near (hv : v.isFinite = true) (hsmall : |value v| ≤ 2 ^ 20) :
    |value (cdfAround v 1) - 1 / 2| ≤ 2 ^ (-32 : ℤ) + 2 ^ (-40 : ℤ) := by
  obtain ⟨hpart, hwhole⟩ := fraction_near hv hsmall
  obtain ⟨hdown, hup, -⟩ := bounds_around hv
  set error : ℚ := 2 ^ (-33 : ℤ) + Near.unit with herror
  have hunit : (0 : ℚ) ≤ Near.unit := by
    unfold Near.unit
    positivity
  have hbound : error ≤ 1 / 8 := by norm_num [herror, Near.unit]
  have hwholeNear : |value (v + 0.5 - (v - 0.5)) - 1| ≤ 2 * error :=
    hwhole.error_le.trans (by linarith)
  obtain ⟨hpartGe, hpartLe⟩ := abs_le.mp hpart.error_le
  obtain ⟨hwholeGe, hwholeLe⟩ := abs_le.mp hwholeNear
  -- The value lies inside the bucket, as the differences tell.
  have hpartValue := (sub_rounds hv hdown).value_eq hpart.isFinite
  have hwholeValue := (sub_rounds hup hdown).value_eq hwhole.isFinite
  have habove : ¬ v ≤ v - 0.5 := fun hle => by
    rw [le_iff_value hv hdown] at hle
    have hnonpos := nearest_mono (sub_nonpos.mpr hle)
    rw [nearest_zero] at hnonpos
    linarith
  have hbelow : ¬ v + 0.5 ≤ v := fun hle => by
    rw [le_iff_value hup hv] at hle
    have := nearest_mono (sub_le_sub_right hle (value (v - 0.5)))
    linarith
  have hne : value (v + 0.5 - (v - 0.5)) ≠ 0 := by linarith
  have hquotient := quotient_near hpart.error_le hwholeNear hbound
  have hquotientLe : 2 * error * (1 + 4 * error) ≤ 1 := by norm_num [herror, Near.unit]
  have hnear := Near.trans (div_rounds hpart.isFinite hwhole.isFinite hne) (by
    have := abs_le.mp hquotient
    exact abs_le.mpr ⟨by linarith, by linarith⟩) hquotient
  set fraction := (v - (v - 0.5)) / (v + 0.5 - (v - 0.5))
  rw [cdfAround_one hv, if_neg habove, if_neg hbelow,
    mul_one_eq_self (isNaN_of_isFinite hnear.isFinite)]
  have hadd := add_rounds isFinite_zero hnear.isFinite
  rw [value_zero, zero_add] at hadd
  rw [hadd.of_value.2]
  exact hnear.error_le.trans (by norm_num [herror, Near.unit])

end FairProgram.Stats
