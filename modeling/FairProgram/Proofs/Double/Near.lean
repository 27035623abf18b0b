import FairProgram.Proofs.Double.Finite
import FairProgram.Proofs.Double.Fraction
import Mathlib

/-!
# Errors of computations

How far a computed double is at most from the exact result, operation by operation, for numbers up
to sixteen (`Near`): each operation adds an error of `Near.unit` at most to the errors of its
operands. Whatever the error, differences of different doubles keep their sign (`nearest_sub_pos`),
and what is less than the last place of a large double leaves it as it is (`nearest_add_of_large`).
-/

namespace FairProgram.Double

open Float.Model Float.Model.UnpackedFloat

variable {x y t : Float} {q r d : ℚ}

-- ---------------------------------------------------------------------------
-- What rounding keeps
-- ---------------------------------------------------------------------------

/-- Numbers below the double of a power of two are rounded by its 53rd binary part at most. -/
theorem abs_nearest_sub_le_zpow {e : ℤ} (he : -1022 ≤ e) (h : |q| < 2 ^ (e + 1)) :
    |nearest q - q| ≤ 2 ^ (e - 53) := by
  by_cases hq : q = 0
  · rw [hq, nearest_zero, sub_zero, abs_zero]
    positivity
  have hplace : lastPlace q ≤ e - 53 + 1 := by
    have := lastPlace_le (e := e - 52) (by omega) hq (by rwa [show e - 52 + 53 = e + 1 by ring])
    omega
  calc |nearest q - q| ≤ 2 ^ lastPlace q / 2 := abs_nearest_sub_le_half q
    _ ≤ 2 ^ (e - 53 + 1) / 2 :=
      div_le_div_of_nonneg_right (zpow_le_zpow_right₀ one_le_two hplace) zero_le_two
    _ = 2 ^ (e - 53) := by rw [zpow_add_one₀ two_ne_zero, mul_div_cancel_right₀ _ two_ne_zero]

theorem Rounds.near_zpow {e : ℤ} (h : Rounds x q) (hleast : -1022 ≤ e) (hmost : e + 1 ≤ 1023)
    (hlt : |q| < 2 ^ (e + 1)) : x.isFinite = true ∧ |value x - q| ≤ 2 ^ (e - 53) := by
  have hf := (h.abs_value_le (by omega) hmost hlt.le).1
  exact ⟨hf, h.value_eq hf ▸ abs_nearest_sub_le_zpow hleast hlt⟩

/-- The last place of a number is at most that of a double that is greater by a half at least. -/
theorem nearest_add_of_large (hlarge : 2 ^ (54 : ℤ) ≤ |value x|) (hd : |d| ≤ 1 / 2) :
    nearest (value x + d) = value x := by
  obtain ⟨m, e, hm, he, -, hx⟩ := value_mem_grid x
  have hpos : (0 : ℚ) < 2 ^ e := by positivity
  have habs : |value x| = |(m : ℚ)| * 2 ^ e := by rw [hx, abs_mul, abs_of_pos hpos]
  have hm : |(m : ℚ)| ≤ 2 ^ (53 : ℤ) - 1 := by
    have : |m| ≤ 2 ^ 53 - 1 := Int.le_sub_one_of_lt hm
    exact_mod_cast this
  have hmost : |value x| ≤ 2 ^ (e + 53) - 2 ^ e := by
    rw [habs, zpow_add₀ two_ne_zero, mul_comm, ← mul_sub_one]
    exact mul_le_mul_of_nonneg_left hm hpos.le
  have hexponent : 0 ≤ e := by
    by_contra hneg
    have : (2 : ℚ) ^ (e + 53) ≤ 2 ^ (54 : ℤ) := zpow_le_zpow_right₀ one_le_two (by omega)
    linarith
  have hone : (1 : ℚ) ≤ 2 ^ e := one_le_zpow₀ one_le_two hexponent
  set q := value x + d with hq
  have hless : |q| < 2 ^ (e + 53) := by linarith [abs_add_le (value x) d]
  have hmore : 2 ^ (53 : ℤ) ≤ |q| := by
    have := abs_sub_abs_le_abs_sub (value x) q
    rw [show value x - q = -d by rw [hq]; ring, abs_neg] at this
    norm_num at hlarge ⊢
    linarith
  have hne : q ≠ 0 := abs_pos.mp ((show (0 : ℚ) < 2 ^ (53 : ℤ) by positivity).trans_le hmore)
  have hplaceLe : lastPlace q ≤ e := lastPlace_le he hne hless
  have hplaceGe : 1 ≤ lastPlace q := by
    by_contra hneg
    have : (2 : ℚ) ^ (lastPlace q + 53) ≤ 2 ^ (53 : ℤ) :=
      zpow_le_zpow_right₀ one_le_two (by omega)
    linarith [abs_lt_lastPlace q]
  -- Both are multiples of the last place, and less than one apart.
  obtain ⟨k, hk⟩ := Int.eq_ofNat_of_zero_le (sub_nonneg.mpr hplaceLe)
  have hplace : (0 : ℚ) < 2 ^ lastPlace q := by positivity
  have hmultiple : value x = ((m * 2 ^ k : ℤ) : ℚ) * 2 ^ lastPlace q := by
    rw [hx, show e = k + lastPlace q by omega, zpow_add₀ two_ne_zero]
    push_cast
    rw [zpow_natCast]
    ring
  have hclose : |nearest q - value x| < 2 ^ lastPlace q := by
    have htwo : (2 : ℚ) ^ (1 : ℤ) ≤ 2 ^ lastPlace q := zpow_le_zpow_right₀ one_le_two hplaceGe
    have herror := abs_nearest_sub_le_half q
    have := abs_sub_le (nearest q) q (value x)
    rw [show q - value x = d by rw [hq]; ring] at this
    norm_num at htwo
    linarith
  rw [nearest, hmultiple, ← sub_mul, abs_mul, abs_of_pos hplace] at hclose
  have hwhole : |halfEven (q / 2 ^ lastPlace q) - m * 2 ^ k| < 1 := by
    exact_mod_cast (mul_lt_iff_lt_one_left hplace).mp hclose
  rw [nearest, hmultiple, sub_eq_zero.mp (Int.abs_lt_one_iff.mp hwhole)]

/-- Different doubles are not rounded to one when one is taken from the other. -/
theorem nearest_sub_pos (h : value x < value y) : 0 < nearest (value y - value x) := by
  have hmultiple (z : Float) : ∃ k : ℤ, value z = k * 2 ^ (-1074 : ℤ) := by
    obtain ⟨m, e, -, he, -, hz⟩ := value_mem_grid z
    obtain ⟨k, hk⟩ := Int.eq_ofNat_of_zero_le (sub_nonneg.mpr he)
    refine ⟨m * 2 ^ k, ?_⟩
    rw [hz, show e = k + -1074 by omega, zpow_add₀ two_ne_zero, zpow_natCast]
    rw [Int.cast_mul, Int.cast_pow, Int.cast_ofNat]
    exact (mul_assoc _ _ _).symm
  obtain ⟨i, hi⟩ := hmultiple x
  obtain ⟨j, hj⟩ := hmultiple y
  have hplace : (0 : ℚ) < 2 ^ (-1074 : ℤ) := by positivity
  have hlt : i < j := by
    rw [hi, hj] at h
    exact Int.cast_lt.mp (lt_of_mul_lt_mul_right h hplace.le)
  have hone : (1 : ℚ) ≤ j - i := by exact_mod_cast Int.le_sub_left_of_add_le hlt
  have hleast : 2 ^ (-1074 : ℤ) ≤ value y - value x := by
    rw [hi, hj, ← sub_mul]
    exact le_mul_of_one_le_left hplace.le hone
  exact hplace.trans_le (nearest_zpow (le_refl (-1074)) ▸ nearest_mono hleast)

-- ---------------------------------------------------------------------------
-- Signs of results
-- ---------------------------------------------------------------------------

theorem nonneg_abs (h : x.isNaN = false) : 0 ≤ x.abs := by
  have habs : x.abs.toModel = Float.Model.pack x.toModel.unpack.abs := rfl
  have h : x.toModel.unpack.isNaN = false := h
  cases hu : x.toModel.unpack with
  | notANumber => simp [hu, UnpackedFloat.isNaN] at h
  | infinity sign =>
    rw [hu] at habs
    exact le_of_lt (pos_of_infinity (habs ▸ unpack_pack_infinity .positive))
  | zero sign =>
    rw [hu] at habs
    have hzero : x.abs.toModel.unpack = .zero .positive := habs ▸ unpack_pack_zero .positive
    exact rounds_zero.le (rounds_of_zero hzero) le_rfl
  | finite sign mantissa exponent hpos =>
    rw [hu] at habs
    obtain ⟨hcanonical, hmost⟩ := canonical_of_unpack hu
    have hpositive : x.abs.toModel.unpack = .finite .positive mantissa exponent hpos :=
      habs ▸ unpack_pack_finite hcanonical hmost
    exact le_of_lt (pos_of_finite hpositive)

theorem neg_mul_self_nonpos (h : 0 ≤ x) : -x * x ≤ 0 := by
  obtain ⟨hf, hv⟩ | hu := nonneg_cases h
  · refine (mul_rounds ((isFinite_neg x).trans hf) hf).le rounds_zero ?_
    rw [value_neg, neg_mul]
    exact neg_nonpos.mpr (mul_self_nonneg _)
  · have hneg : (-x).toModel.unpack = .infinity .negative := by
      rw [unpack_neg, hu]
      rfl
    have hproduct : (-x * x).toModel.unpack = .infinity .negative :=
      (unpack_mul hneg hu).trans (unpack_pack_infinity .negative)
    exact infinity_le hproduct (isNaN_of_isFinite isFinite_zero)

/-- The reciprocal of a number from one on, also of infinity. -/
theorem inv_mem_unit (h : 1 ≤ x) : 0 ≤ 1 / x ∧ 1 / x ≤ 1 := by
  have hpos := lt_of_lt_of_le pos_one h
  obtain ⟨hf, -⟩ | hu := nonneg_cases (le_of_lt hpos)
  · exact div_mem_unit (le_of_lt pos_one) hpos hf h
  · have hone : (1 : Float).toModel.unpack = .finite .positive (2 ^ 52) (-52) (by norm_num) := rfl
    have hzero : (1 / x).toModel.unpack = .zero .positive :=
      (unpack_div hone hu).trans (unpack_pack_zero .positive)
    exact ⟨rounds_zero.le (rounds_of_zero hzero) le_rfl,
      (rounds_of_zero hzero).le rounds_one zero_le_one⟩

theorem zero_div_pos (hy : 0 < y) (hf : y.isFinite = true) : 0 / y = 0 := by
  have hzero : (0 : Float).toModel.unpack = .zero .positive := rfl
  obtain ⟨mantissa, exponent, hpos, hu⟩ | hu := unpack_pos hy
  · have hquotient : (0 / y).toModel.unpack = .zero .positive :=
      (unpack_div hzero hu).trans (unpack_pack_zero .positive)
    exact eq_of_toModel ((toModel_of_unpack hquotient).trans (toModel_of_unpack hzero).symm)
  · rw [isFinite_of_infinity hu] at hf
    cases hf

/-- A quotient by infinity is zero. -/
theorem isNaN_div_pos (hx : x.isFinite = true) (hy : 0 < y) : (x / y).isNaN = false := by
  obtain ⟨mantissa, exponent, hpos, hu⟩ | hu := unpack_pos hy
  · have hf : y.isFinite = true := isFinite_of_unpack (by rw [hu]; rfl)
    exact (div_rounds hx hf (value_pos hf hy).ne').isNaN
  · have hzero (sign : Sign) (h : (x / y).toModel.unpack = .zero sign) :
        (x / y).isNaN = false := (rounds_of_zero h).isNaN
    obtain ⟨sign, hx⟩ | ⟨sign, mantissa, exponent, hpos, hx⟩ := finite_cases hx <;>
      exact hzero _ ((unpack_div hx hu).trans (unpack_pack_zero _))

-- ---------------------------------------------------------------------------
-- Numbers up to sixteen
-- ---------------------------------------------------------------------------

/-- A finite double at most `error` away from a number. -/
structure Near (x : Float) (q error : ℚ) : Prop where
  isFinite : x.isFinite = true
  error_le : |value x - q| ≤ error

namespace Near

/-- What rounding a number up to sixteen errs by at most. -/
def unit : ℚ := 2 ^ (-49 : ℤ)

variable {error error' : ℚ}

theorem of_rounds (h : Rounds x q) (hle : |q| ≤ 16) : Near x q unit := by
  have hlt : |q| < 2 ^ (4 + 1 : ℤ) := hle.trans_lt (by norm_num)
  obtain ⟨hf, hnear⟩ := h.near_zpow (by norm_num) (by norm_num) hlt
  exact ⟨hf, hnear⟩

theorem of_value (h : x.isFinite = true) : Near x (value x) 0 :=
  ⟨h, by rw [sub_self, abs_zero]⟩

theorem abs_le (h : Near x q error) : |value x| ≤ |q| + error := by
  linarith [h.error_le, abs_sub_abs_le_abs_sub (value x) q]

theorem neg (h : Near x q error) : Near (-x) (-q) error := by
  refine ⟨(isFinite_neg x).trans h.isFinite, ?_⟩
  rw [value_neg, neg_sub_neg, abs_sub_comm]
  exact h.error_le

/-- The error of rounding comes on top of that of what is rounded. -/
theorem trans (h : Rounds x q) (hle : |q| ≤ 16) (hr : |q - r| ≤ error) :
    Near x r (error + unit) := by
  obtain ⟨hf, hnear⟩ := of_rounds h hle
  exact ⟨hf, by linarith [abs_sub_le (value x) q r]⟩

theorem add (hx : Near x q error) (hy : Near y r error')
    (hle : |q| + error + (|r| + error') ≤ 16) : Near (x + y) (q + r) (error + error' + unit) := by
  refine trans (add_rounds hx.isFinite hy.isFinite) ?_ ?_
  · exact (abs_add_le _ _).trans ((add_le_add hx.abs_le hy.abs_le).trans hle)
  · rw [add_sub_add_comm]
    exact (abs_add_le _ _).trans (add_le_add hx.error_le hy.error_le)

/-- Factors up to one do not enlarge errors. -/
theorem mul (hx : Near x q error) (ht : t.isFinite = true) (hone : |value t| ≤ 1)
    (hle : |q| + error ≤ 16) : Near (x * t) (q * value t) (error + unit) := by
  refine trans (mul_rounds hx.isFinite ht) ?_ ?_
  · rw [abs_mul]
    exact (mul_le_of_le_one_right (abs_nonneg _) hone).trans (hx.abs_le.trans hle)
  · rw [← sub_mul, abs_mul]
    exact (mul_le_of_le_one_right (abs_nonneg _) hone).trans hx.error_le

/-- One step of Horner's scheme. -/
theorem mul_add {bound bound' : ℚ} (hx : Near x q error) (hy : Near y r unit)
    (ht : t.isFinite = true) (hone : |value t| ≤ 1) (hq : |q| ≤ bound) (hr : |r| ≤ bound')
    (hle : bound + bound' + error + 2 * unit ≤ 16) :
    Near (x * t + y) (q * value t + r) (error + 3 * unit) ∧
      |q * value t + r| ≤ bound + bound' := by
  have hunit : 0 < unit := by
    unfold unit
    positivity
  have hr₀ := abs_nonneg r
  have hproduct : |q * value t| ≤ bound := by
    rw [abs_mul]
    exact (mul_le_of_le_one_right (abs_nonneg _) hone).trans hq
  refine ⟨?_, (abs_add_le _ _).trans (add_le_add hproduct hr)⟩
  have hmul := hx.mul ht hone (by linarith)
  have hadd := hmul.add hy (by linarith)
  rwa [show error + 3 * unit = error + unit + unit + unit by ring]

/-- A decimal fraction is read with one rounding. -/
theorem ofScientific {n e : Nat} (hle : (n : ℚ) / 10 ^ e ≤ 16) :
    Near (Float.ofScientific n true e) (n / 10 ^ e) unit := by
  have hnonneg : (0 : ℚ) ≤ n / 10 ^ e := by positivity
  exact of_rounds (ofScientific_fraction_rounds n e) ((abs_of_nonneg hnonneg).trans_le hle)

end Near

end FairProgram.Double
