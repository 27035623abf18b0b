import FairProgram.Proofs.Double.Finite
import FairProgram.Stats.Moments
import FairProgram.Whole
import Mathlib

/-!
# Moments without overflow

A finite deviation tells that nothing on the way to it was infinite: the mean is finite, and no two
values are further apart than `2 ^ 513` (`abs_sub_lt_of_deviation`). Values up to `2 ^ 431` have a
finite deviation, however many there are: a sum stops growing where its terms are less than half of
its last place (`isFinite_deviation`).
-/

namespace FairProgram.Stats

open Double Scalar

variable {values : List Float} {start x : Float} {e : ℤ}

-- ---------------------------------------------------------------------------
-- Finite deviations
-- ---------------------------------------------------------------------------

theorem isFinite_of_foldl_add (h : (values.foldl (· + ·) start).isFinite = true) :
    start.isFinite = true ∧ ∀ v ∈ values, v.isFinite = true := by
  induction values generalizing start with
  | nil => exact ⟨h, nofun⟩
  | cons v rest ih =>
    obtain ⟨hsum, hrest⟩ := ih h
    obtain ⟨hstart, hv⟩ := isFinite_of_add hsum
    exact ⟨hstart, List.forall_mem_cons.mpr ⟨hv, hrest⟩⟩

theorem isFinite_sub_mean (h : (deviation values).isFinite = true) :
    ∀ v ∈ values, ((v - mean values) * (v - mean values)).isFinite = true := by
  have htotal := (isFinite_of_foldl_add (isFinite_of_div (isFinite_of_sqrt h))).2
  intro v hv
  exact htotal _ (List.mem_map_of_mem hv)

theorem isFinite_mean (hne : values ≠ []) (h : (deviation values).isFinite = true) :
    (mean values).isFinite = true := by
  obtain ⟨v, hv⟩ := List.exists_mem_of_ne_nil values hne
  exact (isFinite_of_sub (isFinite_of_mul (isFinite_sub_mean h v hv)).1).2

/-- Squares are infinite from `2 ^ 512` on. -/
theorem abs_value_lt_of_mul_self (h : (x * x).isFinite = true) : |value x| < 2 ^ (512 : ℤ) := by
  have hx := (isFinite_of_mul h).1
  have hlt := abs_value_lt (x * x)
  rw [(mul_rounds hx hx).value_eq h] at hlt
  have hsquare := abs_lt_of_abs_nearest_lt (by norm_num) hlt
  rw [abs_mul_self, ← sq, ← sq_abs] at hsquare
  refine lt_of_pow_lt_pow_left₀ 2 (by positivity) ?_
  rw [← zpow_natCast ((2 : ℚ) ^ (512 : ℤ)), ← zpow_mul]
  exact hsquare

/-- Values of finite deviation are not far apart. -/
theorem abs_sub_lt_of_deviation (h : (deviation values).isFinite = true) {v w : Float}
    (hv : v ∈ values) (hw : w ∈ values) : |value v - value w| < 2 ^ (513 : ℤ) := by
  have hnear {u : Float} (hu : u ∈ values) : |value u - value (mean values)| < 2 ^ (512 : ℤ) := by
    have hsquare := isFinite_sub_mean h u hu
    have hsub := (isFinite_of_mul hsquare).1
    obtain ⟨hu, hmean⟩ := isFinite_of_sub hsub
    have hlt := abs_value_lt_of_mul_self hsquare
    rw [(sub_rounds hu hmean).value_eq hsub] at hlt
    exact abs_lt_of_abs_nearest_lt (by norm_num) hlt
  have htwice : (2 : ℚ) ^ (512 + 1 : ℤ) = 2 ^ (512 : ℤ) + 2 ^ (512 : ℤ) := by
    rw [zpow_add_one₀ two_ne_zero, mul_two]
  calc |value v - value w|
      ≤ |value v - value (mean values)| + |value (mean values) - value w| := abs_sub_le _ _ _
    _ < 2 ^ (512 : ℤ) + 2 ^ (512 : ℤ) := by
      rw [abs_sub_comm (value (mean values))]
      exact add_lt_add (hnear hv) (hnear hw)
    _ = 2 ^ (512 + 1 : ℤ) := htwice.symm

/-- A quotient by a number of rows is no further from zero than what is divided. -/
theorem div_rows_bounded {rows : Nat} (hpos : 0 < rows) (hrows : rows ≤ Whole.maxWord)
    (hx : x.isFinite = true) : (x / Float.ofNat rows).isFinite = true ∧
      |value (x / Float.ofNat rows)| ≤ |value x| := by
  have hsize := isFinite_word hrows
  have hone : 1 ≤ value (Float.ofNat rows) := by
    rw [(ofNat_rounds rows).value_eq hsize, ← Nat.cast_one,
      ← nearest_natCast (n := 1) (by norm_num)]
    exact nearest_mono (by exact_mod_cast hpos)
  have hdiv := div_rounds hx hsize (by linarith)
  have hle : |value x / value (Float.ofNat rows)| ≤ |value x| := by
    rw [abs_div, abs_of_pos (a := value (Float.ofNat rows)) (by linarith)]
    exact div_le_self (abs_nonneg _) hone
  have hnearest : |nearest (value x / value (Float.ofNat rows))| ≤ |value x| := by
    rw [← nearest_abs, ← nearest_value x, ← nearest_abs]
    exact nearest_mono (by rwa [nearest_value])
  obtain ⟨hf, hvalue⟩ := hdiv.of_lt (hnearest.trans_lt (abs_value_lt x))
  exact ⟨hf, hvalue ▸ hnearest⟩

-- ---------------------------------------------------------------------------
-- Infinite means
-- ---------------------------------------------------------------------------

theorem isNaN_foldl_add (h : ∀ v ∈ values, v.isFinite = true) (hstart : start.isNaN = false) :
    (values.foldl (· + ·) start).isNaN = false := by
  induction values generalizing start with
  | nil => exact hstart
  | cons v rest ih =>
    obtain ⟨hv, hrest⟩ := List.forall_mem_cons.mp h
    refine ih hrest ?_
    cases hf : start.isFinite with
    | true => exact (add_rounds hf hv).isNaN
    | false =>
      obtain ⟨sign, hu⟩ := exists_infinity hstart hf
      exact isNaN_of_infinity (infinity_add hu hv)

theorem foldl_add_infinity (h : ∀ v ∈ values, v.toModel.unpack = .infinity .positive)
    (hstart : start.toModel.unpack = .infinity .positive) :
    (values.foldl (· + ·) start).toModel.unpack = .infinity .positive := by
  induction values generalizing start with
  | nil => exact hstart
  | cons v rest ih =>
    obtain ⟨hv, hrest⟩ := List.forall_mem_cons.mp h
    exact ih hrest (add_infinity_left hstart (le_of_lt (pos_of_infinity hv)))

theorem total_infinity (hne : values ≠ [])
    (h : ∀ v ∈ values, v.toModel.unpack = .infinity .positive) :
    (total values).toModel.unpack = .infinity .positive := by
  obtain ⟨v, rest, rfl⟩ := List.exists_cons_of_ne_nil hne
  obtain ⟨hv, hrest⟩ := List.forall_mem_cons.mp h
  rw [total, List.foldl_cons]
  exact foldl_add_infinity hrest (add_infinity_right (ofNat_nonneg 0) hv)

/-- A mean that is not finite comes from a sum that overflows, and every value is at infinite
distance from it. -/
theorem deviation_of_mean_infinite (hne : values ≠ []) (hrows : values.length ≤ Whole.maxWord)
    (hf : ∀ v ∈ values, v.isFinite = true) (hmean : (mean values).isFinite = false) :
    (deviation values).toModel.unpack = .infinity .positive := by
  have hpos := List.length_pos_iff.mpr hne
  have hsize := isFinite_word hrows
  obtain ⟨sign, hu⟩ : ∃ sign, (mean values).toModel.unpack = .infinity sign := by
    have htotal : (total values).isFinite = false :=
      Bool.eq_false_iff.mpr fun h => Bool.eq_false_iff.mp hmean (div_rows_bounded hpos hrows h).1
    obtain ⟨sign, hu⟩ :=
      exists_infinity (isNaN_foldl_add hf (isNaN_of_nonneg (ofNat_nonneg 0))) htotal
    exact ⟨sign, infinity_div hu (ofNat_pos hpos) hsize⟩
  have hsquares : ∀ w ∈ values.map (fun v => (v - mean values) * (v - mean values)),
      w.toModel.unpack = .infinity .positive := by
    intro w hw
    obtain ⟨v, hv, rfl⟩ := List.mem_map.mp hw
    exact infinity_mul_self (sub_infinity (hf v hv) hu)
  have htotal := total_infinity (by simpa using hne) hsquares
  exact sqrt_infinity (infinity_div htotal (ofNat_pos hpos) hsize)

-- ---------------------------------------------------------------------------
-- Bounded values
-- ---------------------------------------------------------------------------

/-- Half of the last place of a power of two is rounded off. -/
theorem nearest_add_half (he : -1022 ≤ e) : nearest (2 ^ e + 2 ^ (e - 53)) = 2 ^ e := by
  have hhalf : (0 : ℚ) < 2 ^ (e - 53) := by positivity
  have hlt : (2 : ℚ) ^ (e - 53) < 2 ^ e := zpow_lt_zpow_right₀ one_lt_two (by omega)
  have hplace : lastPlace (2 ^ e + 2 ^ (e - 53)) = e - 52 := by
    rw [lastPlace_eq (e := e) (by linarith) (by rw [zpow_add_one₀ two_ne_zero]; linarith)]
    omega
  have hscaled : ((2 : ℚ) ^ e + 2 ^ (e - 53)) / 2 ^ (e - 52) = 2 ^ 52 + 1 / 2 := by
    rw [div_eq_iff (by positivity), add_mul, zpow_sub₀ two_ne_zero, zpow_sub₀ two_ne_zero]
    norm_num
    ring
  have heven : halfEven (2 ^ 52 + 1 / 2) = 2 ^ 52 := by decide +kernel
  rw [nearest, hplace, hscaled, heven, zpow_sub₀ two_ne_zero]
  push_cast
  exact mul_div_cancel₀ _ (by positivity)

/-- What is less than half of the last place of the bound does not lead beyond it. -/
theorem add_bounded {y : Float} (hleast : -1022 ≤ e) (hmost : e ≤ 1023)
    (hx : x.isFinite = true ∧ |value x| ≤ 2 ^ e)
    (hy : y.isFinite = true ∧ |value y| ≤ 2 ^ (e - 53)) :
    (x + y).isFinite = true ∧ |value (x + y)| ≤ 2 ^ e := by
  have habsorbed : |nearest (value x + value y)| ≤ 2 ^ e := by
    rw [← nearest_abs, ← nearest_add_half hleast]
    exact nearest_mono ((abs_add_le _ _).trans (add_le_add hx.2 hy.2))
  obtain ⟨hf, hvalue⟩ := (add_rounds hx.1 hy.1).of_lt
    (habsorbed.trans_lt (zpow_lt_zpow_right₀ one_lt_two (by omega)))
  exact ⟨hf, hvalue ▸ habsorbed⟩

theorem foldl_add_bounded (hleast : -1022 ≤ e) (hmost : e ≤ 1023)
    (h : ∀ v ∈ values, v.isFinite = true ∧ |value v| ≤ 2 ^ (e - 53))
    (hstart : start.isFinite = true ∧ |value start| ≤ 2 ^ e) :
    (values.foldl (· + ·) start).isFinite = true ∧
      |value (values.foldl (· + ·) start)| ≤ 2 ^ e := by
  induction values generalizing start with
  | nil => exact hstart
  | cons v rest ih =>
    obtain ⟨hv, hrest⟩ := List.forall_mem_cons.mp h
    exact ih hrest (add_bounded hleast hmost hstart hv)

theorem total_bounded (hleast : -1022 ≤ e) (hmost : e ≤ 1023)
    (h : ∀ v ∈ values, v.isFinite = true ∧ |value v| ≤ 2 ^ (e - 53)) :
    (total values).isFinite = true ∧ |value (total values)| ≤ 2 ^ e := by
  refine foldl_add_bounded hleast hmost h ⟨isFinite_zero, ?_⟩
  show |value 0| ≤ 2 ^ e
  rw [value_zero, abs_zero]
  positivity

theorem nonneg_foldl_add (h : ∀ v ∈ values, 0 ≤ v) (hstart : 0 ≤ start) :
    0 ≤ values.foldl (· + ·) start := by
  induction values generalizing start with
  | nil => exact hstart
  | cons v rest ih =>
    obtain ⟨hv, hrest⟩ := List.forall_mem_cons.mp h
    exact ih hrest (le_trans hstart (le_add_right hstart hv))

theorem square_bounded {centre v : Float}
    (hc : centre.isFinite = true ∧ |value centre| ≤ 2 ^ (484 : ℤ))
    (hv : v.isFinite = true ∧ |value v| ≤ 2 ^ (431 : ℤ)) :
    0 ≤ (v - centre) * (v - centre) ∧ ((v - centre) * (v - centre)).isFinite = true ∧
      |value ((v - centre) * (v - centre))| ≤ 2 ^ (970 : ℤ) := by
  have hsum : |value v - value centre| ≤ 2 ^ (485 : ℤ) := by
    have hle : (2 : ℚ) ^ (431 : ℤ) ≤ 2 ^ (484 : ℤ) := zpow_le_zpow_right₀ one_le_two (by norm_num)
    have htwice : (2 : ℚ) ^ (484 + 1 : ℤ) = 2 ^ (484 : ℤ) + 2 ^ (484 : ℤ) := by
      rw [zpow_add_one₀ two_ne_zero, mul_two]
    calc |value v - value centre| ≤ |value v| + |value centre| := abs_sub _ _
      _ ≤ 2 ^ (484 : ℤ) + 2 ^ (484 : ℤ) := add_le_add (hv.2.trans hle) hc.2
      _ = 2 ^ (484 + 1 : ℤ) := htwice.symm
  obtain ⟨hsub, hle⟩ := (sub_rounds hv.1 hc.1).abs_value_le (by norm_num) (by norm_num) hsum
  have hmul := mul_rounds hsub hsub
  refine ⟨rounds_zero.le hmul (mul_self_nonneg _), hmul.abs_value_le (by norm_num) (by norm_num) ?_⟩
  rw [abs_mul, show (970 : ℤ) = 485 + 485 from rfl, zpow_add₀ two_ne_zero]
  exact mul_le_mul hle hle (abs_nonneg _) (by positivity)

/-- Values up to `2 ^ 431` have a mean up to `2 ^ 484`, squares of differences from it up to
`2 ^ 970` and a sum of squares up to `2 ^ 1023`. -/
theorem isFinite_deviation (hne : values ≠ []) (hrows : values.length ≤ Whole.maxWord)
    (hf : ∀ v ∈ values, v.isFinite = true) (h : ∀ v ∈ values, |value v| ≤ 2 ^ (431 : ℤ)) :
    (deviation values).isFinite = true := by
  have hpos := List.length_pos_iff.mpr hne
  obtain ⟨hsum, hsumLe⟩ := total_bounded (e := 484) (by norm_num) (by norm_num) fun v hv =>
    ⟨hf v hv, h v hv⟩
  obtain ⟨hmean, hmeanLe⟩ := div_rows_bounded hpos hrows hsum
  have hsquares : ∀ w ∈ values.map (fun v => (v - mean values) * (v - mean values)),
      0 ≤ w ∧ w.isFinite = true ∧ |value w| ≤ 2 ^ (970 : ℤ) := by
    intro w hw
    obtain ⟨v, hv, rfl⟩ := List.mem_map.mp hw
    exact square_bounded ⟨hmean, hmeanLe.trans hsumLe⟩ ⟨hf v hv, h v hv⟩
  have htotal := total_bounded (e := 1023) (by norm_num) le_rfl fun w hw => (hsquares w hw).2
  have hnonneg := nonneg_foldl_add (fun w hw => (hsquares w hw).1) (ofNat_nonneg 0)
  have hvariance := div_rows_bounded hpos hrows htotal.1
  exact isFinite_sqrt (nonneg_div hnonneg htotal.1 (ofNat_pos hpos) (isFinite_word hrows))
    hvariance.1

end FairProgram.Stats
