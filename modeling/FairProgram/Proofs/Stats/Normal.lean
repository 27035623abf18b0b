import FairProgram.Proofs.Double.Near
import FairProgram.Proofs.Stats.Edges
import FairProgram.Stats.Distribution
import Mathlib

/-!
# The normal distribution function near its mean

The approximation of the error function does not pass through zero: at zero it is a billionth, since
its coefficients add up to a billionth less than one. So the normal distribution function comes no
nearer to a half than `2 ^ (-31)`, not even at the mean (`normalCdf_away`).
-/

namespace FairProgram.Stats

open Double Scalar

variable {mu sigma x y t : Float}

def ExpBounded : Prop :=
  ∀ x : Float, x ≤ 0 → 0 ≤ x.exp ∧ x.exp ≤ 1

-- ---------------------------------------------------------------------------
-- The polynomial
-- ---------------------------------------------------------------------------

/-- The polynomial of the Abramowitz and Stegun formula 7.1.26. -/
def erfPolynomial (t : ℚ) : ℚ :=
  ((((1061405429 / 10 ^ 9 * t + -(1453152027 / 10 ^ 9)) * t + 1421413741 / 10 ^ 9) * t +
    -(284496736 / 10 ^ 9)) * t + 254829592 / 10 ^ 9) * t

/-- The polynomial is greatest at one, as far as one: what it is less than there has one as a zero,
and the other factor is positive. -/
theorem erfPolynomial_le {t : ℚ} (h : 0 ≤ t) (hone : t ≤ 1) :
    erfPolynomial t ≤ 999999999 / 10 ^ 9 := by
  have hfactor : 999999999 / 10 ^ 9 - erfPolynomial t = (1 - t) * (999999999 / 10 ^ 9 +
      745170407 / 10 ^ 9 * t + (637920545 / 10 ^ 9 + 391746598 / 10 ^ 9 * (1 - t)) * t ^ 2 +
      1061405429 / 10 ^ 9 * t ^ 4) := by
    unfold erfPolynomial
    ring
  have hrest : 0 ≤ 1 - t := sub_nonneg.mpr hone
  have : 0 ≤ 999999999 / 10 ^ 9 - erfPolynomial t := by
    rw [hfactor]
    positivity
  linarith

theorem near_coefficient {n : Nat} (h : n ≤ 1500000000) :
    Near (Float.ofScientific n true 9) (n / 10 ^ 9) Near.unit ∧ |(n / 10 ^ 9 : ℚ)| ≤ 3 / 2 := by
  have hle : (n / 10 ^ 9 : ℚ) ≤ 3 / 2 := by
    have : (n : ℚ) ≤ 1500000000 := by exact_mod_cast h
    rw [div_le_iff₀ (by norm_num)]
    linarith
  have hnonneg : (0 : ℚ) ≤ n / 10 ^ 9 := by positivity
  exact ⟨Near.ofScientific (hle.trans (by norm_num)), (abs_of_nonneg hnonneg).trans_le hle⟩

/-- Nine operations and five coefficients err by a unit each. -/
theorem near_erfPolynomial (ht : t.isFinite = true) (hnonneg : 0 ≤ value t) (hone : value t ≤ 1) :
    Near (((((1.061405429 * t + -1.453152027) * t + 1.421413741) * t + -0.284496736) * t +
      0.254829592) * t) (erfPolynomial (value t)) (14 * Near.unit) ∧
      |erfPolynomial (value t)| ≤ 15 / 2 := by
  have habs : |value t| ≤ 1 := abs_le.mpr ⟨by linarith, hone⟩
  have hunit : Near.unit ≤ 1 / 1000 := by norm_num [Near.unit]
  obtain ⟨h₁, hle₁⟩ := near_coefficient (n := 254829592) (by norm_num)
  obtain ⟨h₂, hle₂⟩ := near_coefficient (n := 284496736) (by norm_num)
  obtain ⟨h₃, hle₃⟩ := near_coefficient (n := 1421413741) (by norm_num)
  obtain ⟨h₄, hle₄⟩ := near_coefficient (n := 1453152027) (by norm_num)
  obtain ⟨h₅, hle₅⟩ := near_coefficient (n := 1061405429) (by norm_num)
  rw [← abs_neg] at hle₂ hle₄
  obtain ⟨hquartic, hle⟩ := h₅.mul_add h₄.neg ht habs hle₅ hle₄ (by linarith)
  obtain ⟨hcubic, hle⟩ := hquartic.mul_add h₃ ht habs hle hle₃ (by linarith)
  obtain ⟨hquadratic, hle⟩ := hcubic.mul_add h₂.neg ht habs hle hle₂ (by linarith)
  obtain ⟨hlinear, hle⟩ := hquadratic.mul_add h₁ ht habs hle hle₁ (by linarith)
  have hseries := hlinear.mul ht habs (by linarith)
  rw [show Near.unit + 3 * Near.unit + 3 * Near.unit + 3 * Near.unit + 3 * Near.unit + Near.unit =
    14 * Near.unit by ring] at hseries
  refine ⟨hseries, ?_⟩
  rw [erfPolynomial, abs_mul]
  exact (mul_le_of_le_one_right (abs_nonneg _) habs).trans (hle.trans (by norm_num))

-- ---------------------------------------------------------------------------
-- The error function
-- ---------------------------------------------------------------------------

theorem erfArgument_mem_unit (h : 0 ≤ x) :
    0 ≤ 1 / (1 + 0.3275911 * x) ∧ 1 / (1 + 0.3275911 * x) ≤ 1 := by
  have hscale : (0 : Float) < 0.3275911 := by decide +kernel
  have hproduct : (0.3275911 * x).isNaN = false := by
    refine Bool.eq_false_iff.mpr fun hnan => ?_
    obtain ⟨hnot, -⟩ | ⟨hinfinite, -⟩ := (mul_isNaN_iff (le_of_lt hscale) h).mp hnan
    · exact hnot hscale
    · exact absurd hinfinite (by decide +kernel)
  have hnonneg := nonneg_mul (le_of_lt hscale) h hproduct
  exact inv_mem_unit (le_add_right (le_of_lt pos_one) hnonneg)

/-- One less the error function is small only by a billionth less than one. -/
theorem exists_tail (hexp : ExpBounded) (hx : x.isNaN = false) : ∃ tail : Float,
    erf x = (if 0 ≤ x then 1 else -1) * tail ∧ tail.isFinite = true ∧
      1 / 10 ^ 9 - 16 * Near.unit ≤ value tail ∧ value tail ≤ 17 / 2 + 16 * Near.unit := by
  have habs := nonneg_abs hx
  obtain ⟨hnonneg, hone⟩ := erfArgument_mem_unit habs
  set t := 1 / (1 + 0.3275911 * x.abs) with hdef
  have ht := isFinite_of_between isFinite_zero isFinite_one hnonneg hone
  rw [le_iff_value isFinite_zero ht, value_zero] at hnonneg
  rw [le_iff_value ht isFinite_one, value_one] at hone
  obtain ⟨hseries, hle⟩ := near_erfPolynomial ht hnonneg hone
  obtain ⟨hdecay, hdecayOne⟩ := hexp (-x.abs * x.abs) (neg_mul_self_nonpos habs)
  have hfinite := isFinite_of_between isFinite_zero isFinite_one hdecay hdecayOne
  rw [le_iff_value isFinite_zero hfinite, value_zero] at hdecay
  rw [le_iff_value hfinite isFinite_one, value_one] at hdecayOne
  set decay := (-x.abs * x.abs).exp
  set series := ((((1.061405429 * t + -1.453152027) * t + 1.421413741) * t + -0.284496736) * t +
    0.254829592) * t
  have hunit : Near.unit ≤ 1 / 1000 := by norm_num [Near.unit]
  have hdecayAbs : |value decay| ≤ 1 := abs_le.mpr ⟨by linarith, hdecayOne⟩
  have hproduct := hseries.mul hfinite hdecayAbs (by linarith)
  have hproductAbs : |erfPolynomial (value t) * value decay| ≤ 15 / 2 := by
    rw [abs_mul]
    exact (mul_le_of_le_one_right (abs_nonneg _) hdecayAbs).trans hle
  have hproductLe : erfPolynomial (value t) * value decay ≤ 999999999 / 10 ^ 9 :=
    (mul_le_mul_of_nonneg_right (erfPolynomial_le hnonneg hone) hdecay).trans
      (mul_le_of_le_one_right (by norm_num) hdecayOne)
  have htail := (Near.of_value isFinite_one).add hproduct.neg (by
    rw [value_one, abs_one, abs_neg]
    linarith)
  rw [← sub_eq_add, value_one] at htail
  refine ⟨1 - series * decay, rfl, htail.isFinite, ?_⟩
  obtain ⟨hleast, hmost⟩ := abs_le.mp htail.error_le
  obtain ⟨hleastProduct, -⟩ := abs_le.mp hproductAbs
  constructor <;> linarith

theorem erf_away (hexp : ExpBounded) (hx : x.isNaN = false) : (erf x).isFinite = true ∧
    1 / 10 ^ 9 - 16 * Near.unit ≤ |value (erf x)| ∧ |value (erf x)| ≤ 9 := by
  obtain ⟨tail, herf, htail, hleast, hmost⟩ := exists_tail hexp hx
  have hunit : Near.unit ≤ 1 / 10 ^ 12 := by norm_num [Near.unit]
  have hpos : 0 < value tail := lt_of_lt_of_le (by linarith) hleast
  have hsigned : (erf x).isFinite = true ∧ |value (erf x)| = value tail := by
    rw [herf, ← abs_of_pos hpos]
    split
    · have hrounds := mul_rounds isFinite_one htail
      rw [value_one, one_mul] at hrounds
      obtain ⟨hf, hv⟩ := hrounds.of_value
      exact ⟨hf, congrArg _ hv⟩
    · have hrounds := mul_rounds ((isFinite_neg 1).trans isFinite_one) htail
      rw [value_neg, value_one, neg_one_mul, ← value_neg] at hrounds
      obtain ⟨hf, hv⟩ := hrounds.of_value
      exact ⟨hf, by rw [hv, value_neg, abs_neg]⟩
  obtain ⟨hf, habs⟩ := hsigned
  rw [habs]
  exact ⟨hf, hleast, hmost.trans (by linarith)⟩

-- ---------------------------------------------------------------------------
-- The normal distribution function
-- ---------------------------------------------------------------------------

def gap : ℚ := 2 ^ (-31 : ℤ)

/-- Half of what the error function is away from zero is more than the gap and the errors. -/
theorem normalCdf_away (hexp : ExpBounded)
    (hx : ((x - mu) / (sigma * 1.4142135623730951)).isNaN = false) :
    (normalCdf mu sigma x).isFinite = true ∧ gap ≤ |value (normalCdf mu sigma x) - 1 / 2| := by
  obtain ⟨hf, hleast, hmost⟩ := erf_away hexp hx
  have hcdf : normalCdf mu sigma x =
      0.5 * (1 + erf ((x - mu) / (sigma * 1.4142135623730951))) := rfl
  rw [hcdf]
  set e := erf ((x - mu) / (sigma * 1.4142135623730951))
  have hunit : Near.unit ≤ 1 / 10 ^ 12 := by norm_num [Near.unit]
  have hsum := (Near.of_value isFinite_one).add (Near.of_value hf) (by
    rw [value_one, abs_one]
    linarith)
  rw [value_one] at hsum
  have hscaled := mul_rounds isFinite_half hsum.isFinite
  have hhalf : |value 0.5 * value (1 + e) - 1 / 2 * (1 + value e)| ≤ 1 / 2 * Near.unit := by
    rw [value_half_eq, ← mul_sub, abs_mul, abs_of_pos (by norm_num : (0 : ℚ) < 1 / 2)]
    linarith [hsum.error_le]
  have hbound : |value 0.5 * value (1 + e)| ≤ 16 := by
    rw [value_half_eq, abs_mul, abs_of_pos (by norm_num : (0 : ℚ) < 1 / 2)]
    linarith [hsum.abs_le, abs_add_le 1 (value e), abs_one (α := ℚ)]
  have hnear := Near.trans hscaled hbound hhalf
  refine ⟨hnear.isFinite, ?_⟩
  have hdifference : |1 / 2 * value e - (value (0.5 * (1 + e)) - 1 / 2)| ≤
      1 / 2 * Near.unit + Near.unit := by
    rw [abs_sub_comm]
    convert hnear.error_le using 2
    ring
  have hdistance := abs_sub_abs_le_abs_sub (1 / 2 * value e) (value (0.5 * (1 + e)) - 1 / 2)
  rw [abs_mul, abs_of_pos (by norm_num : (0 : ℚ) < 1 / 2)] at hdistance
  have hgap :
      gap ≤ 1 / 2 * (1 / 10 ^ 9 - 16 * Near.unit) - (1 / 2 * Near.unit + Near.unit) := by
    norm_num [gap, Near.unit]
  linarith

end FairProgram.Stats
