import FairProgram.Proofs.Double.Comparison
import FairProgram.Proofs.Double.Whole
import Mathlib

/-!
# Doubles that are not negative

Sums and products of doubles that are not negative, infinity among them, keep their order. A sum is
always a number; a product is one unless zero meets infinity (`mul_isNaN_iff`).
-/

namespace FairProgram.Double

open Float.Model Float.Model.UnpackedFloat

section
variable {x y x' y' : Float} {n : Nat}

-- ---------------------------------------------------------------------------
-- Whole numbers
-- ---------------------------------------------------------------------------

theorem value_ofNat (h : n < 2 ^ 53) :
    (Float.ofNat n).isFinite = true ∧ value (Float.ofNat n) = n := by
  have hlt : |nearest (n : ℚ)| < 2 ^ (1024 : ℤ) := by
    rw [nearest_natCast h, Nat.abs_cast]
    calc (n : ℚ) < 2 ^ (53 : ℤ) := by exact_mod_cast h
      _ ≤ 2 ^ (1024 : ℤ) := zpow_le_zpow_right₀ one_le_two (by norm_num)
  have := (ofNat_rounds n).of_lt hlt
  rwa [nearest_natCast h] at this

theorem isFinite_one : (1 : Float).isFinite = true :=
  (value_ofNat (by norm_num)).1

@[simp] theorem value_one : value 1 = 1 := by
  have := (value_ofNat (n := 1) (by norm_num)).2
  rwa [Nat.cast_one] at this

theorem isFinite_zero : (0 : Float).isFinite = true :=
  (value_ofNat (by norm_num)).1

@[simp] theorem value_zero : value 0 = 0 := by
  have := (value_ofNat (n := 0) (by norm_num)).2
  rwa [Nat.cast_zero] at this

theorem rounds_zero : Rounds 0 0 :=
  value_zero ▸ rounds_value isFinite_zero

theorem rounds_one : Rounds 1 1 :=
  value_one ▸ rounds_value isFinite_one

theorem Rounds.of_zero (h : Rounds x 0) : x.isFinite = true ∧ value x = 0 := by
  rw [← value_zero] at h ⊢
  exact h.of_value

theorem Rounds.of_one (h : Rounds x 1) : x.isFinite = true ∧ value x = 1 := by
  rw [← value_one] at h ⊢
  exact h.of_value

theorem pos_one : (0 : Float) < 1 := by
  rw [lt_iff_value isFinite_zero isFinite_one, value_zero, value_one]
  exact zero_lt_one

theorem ofNat_le {n m : Nat} (h : n ≤ m) : Float.ofNat n ≤ Float.ofNat m :=
  (ofNat_rounds n).le (ofNat_rounds m) (by exact_mod_cast h)

theorem ofNat_nonneg (n : Nat) : 0 ≤ Float.ofNat n :=
  ofNat_le (Nat.zero_le n)

/-- Whole numbers of no more than 1024 places are finite. -/
theorem isFinite_ofNat {places : Nat} (h : n ≤ 2 ^ places) (hplaces : places < 1024) :
    (Float.ofNat n).isFinite = true := by
  refine ((ofNat_rounds n).of_lt ?_).1
  have hle : nearest (n : ℚ) ≤ 2 ^ places := by
    rw [← nearest_two_pow]
    exact nearest_mono (by exact_mod_cast h)
  rw [abs_of_nonneg (nearest_nonneg (Nat.cast_nonneg n))]
  refine hle.trans_lt ?_
  rw [← zpow_natCast]
  exact zpow_lt_zpow_right₀ one_lt_two (by omega)

theorem isFinite_word (h : n ≤ Whole.maxWord) : (Float.ofNat n).isFinite = true :=
  isFinite_ofNat (h.trans (by decide : Whole.maxWord ≤ 2 ^ 64)) (by norm_num)

theorem ofNat_pos (h : 0 < n) : 0 < Float.ofNat n :=
  lt_of_lt_of_le pos_one (ofNat_le h)

-- ---------------------------------------------------------------------------
-- Cases
-- ---------------------------------------------------------------------------

theorem isNaN_of_infinity {sign : Sign} (h : x.toModel.unpack = .infinity sign) :
    x.isNaN = false := by
  show x.toModel.unpack.isNaN = false
  rw [h]
  rfl

theorem pos_of_finite {mantissa : Nat} {exponent : ℤ} {hpos : 0 < mantissa}
    (h : x.toModel.unpack = .finite .positive mantissa exponent hpos) : 0 < x := by
  rw [lt_iff_value isFinite_zero (isFinite_of_unpack (by rw [h]; rfl)), value_zero,
    value_of_finite h]
  exact mul_pos (by exact_mod_cast hpos) (by positivity)

theorem pos_of_infinity (h : x.toModel.unpack = .infinity .positive) : 0 < x := by
  refine lt_iff.mpr ⟨isNaN_of_isFinite isFinite_zero, isNaN_of_infinity h, ?_⟩
  rw [h]
  exact (rank_of_isFinite (a := (0 : Float).toModel.unpack) rfl).2

/-- What a double that is not negative can be. -/
theorem unpack_nonneg (h : 0 ≤ x) :
    (∃ sign, x.toModel.unpack = .zero sign) ∨
      (∃ mantissa exponent hpos, x.toModel.unpack = .finite .positive mantissa exponent hpos) ∨
      x.toModel.unpack = .infinity .positive := by
  obtain ⟨-, hn, hrank⟩ := le_iff.mp h
  have hn : x.toModel.unpack.isNaN = false := hn
  cases hx : x.toModel.unpack with
  | notANumber => simp [hx, UnpackedFloat.isNaN] at hn
  | zero sign => exact .inl ⟨sign, rfl⟩
  | infinity sign =>
    cases sign with
    | positive => exact .inr (.inr rfl)
    | negative =>
      rw [hx] at hrank
      exact absurd hrank (not_le.mpr (rank_of_isFinite (a := (0 : Float).toModel.unpack) rfl).1)
  | finite sign mantissa exponent hpos =>
    cases sign with
    | positive => exact .inr (.inl ⟨mantissa, exponent, hpos, rfl⟩)
    | negative =>
      have hf : x.isFinite = true := isFinite_of_unpack (by rw [hx]; rfl)
      rw [le_iff_value isFinite_zero hf, value_zero, value_of_finite hx, signed] at h
      have : (0 : ℚ) < mantissa * 2 ^ exponent := by positivity
      linarith

theorem unpack_pos (h : 0 < x) :
    (∃ mantissa exponent hpos, x.toModel.unpack = .finite .positive mantissa exponent hpos) ∨
      x.toModel.unpack = .infinity .positive := by
  obtain ⟨sign, hu⟩ | h := unpack_nonneg (le_of_lt h)
  · rw [lt_iff_value isFinite_zero (isFinite_of_unpack (by rw [hu]; rfl)), value_zero,
      value_of_zero hu] at h
    exact absurd h (lt_irrefl _)
  · exact h

theorem nonneg_cases (h : 0 ≤ x) :
    (x.isFinite = true ∧ 0 ≤ value x) ∨ x.toModel.unpack = .infinity .positive := by
  obtain ⟨sign, hu⟩ | ⟨mantissa, exponent, hpos, hu⟩ | hu := unpack_nonneg h
  · exact .inl ⟨isFinite_of_unpack (by rw [hu]; rfl), (value_of_zero hu).ge⟩
  · refine .inl ⟨isFinite_of_unpack (by rw [hu]; rfl), ?_⟩
    rw [value_of_finite hu]
    exact mul_nonneg (Nat.cast_nonneg _) (by positivity)
  · exact .inr hu

theorem isNaN_of_nonneg (h : 0 ≤ x) : x.isNaN = false :=
  (le_iff.mp h).2.1

theorem isFinite_of_between (hx : x.isFinite = true) (hx' : x'.isFinite = true) (h : x ≤ y)
    (h' : y ≤ x') : y.isFinite = true := by
  obtain ⟨-, hn, hrank⟩ := le_iff.mp h
  have hrank' := (le_iff.mp h').2.2
  have hn : y.toModel.unpack.isNaN = false := hn
  cases hy : y.toModel.unpack with
  | notANumber => simp [hy, UnpackedFloat.isNaN] at hn
  | infinity sign =>
    rw [hy] at hrank hrank'
    cases sign with
    | positive => exact absurd hrank' (not_le.mpr (rank_of_isFinite hx').2)
    | negative => exact absurd hrank (not_le.mpr (rank_of_isFinite hx).1)
  | zero _ | finite _ _ _ _ => exact isFinite_of_unpack (by rw [hy]; rfl)

theorem isFinite_of_le (hx : 0 ≤ x) (hy : y.isFinite = true) (h : x ≤ y) : x.isFinite = true :=
  isFinite_of_between isFinite_zero hy hx h

theorem value_nonneg (hf : x.isFinite = true) (h : 0 ≤ x) : 0 ≤ value x := by
  rwa [le_iff_value isFinite_zero hf, value_zero] at h

theorem value_pos (hf : x.isFinite = true) (h : 0 < x) : 0 < value x := by
  rwa [lt_iff_value isFinite_zero hf, value_zero] at h

-- ---------------------------------------------------------------------------
-- Sums
-- ---------------------------------------------------------------------------

theorem unpack_add {u v : UnpackedFloat} (hx : x.toModel.unpack = u) (hy : y.toModel.unpack = v) :
    (x + y).toModel.unpack = (Float.Model.pack (UnpackedFloat.add .binary64 u v)).unpack := by
  rw [← hx, ← hy]
  rfl

theorem unpack_pack_notANumber :
    (Float.Model.pack .notANumber).unpack = .notANumber := rfl

theorem unpack_of_isNaN (h : x.isNaN = true) : x.toModel.unpack = .notANumber :=
  isNaN_iff.mp h

theorem isNaN_of_unpack (h : x.toModel.unpack = .notANumber) : x.isNaN = true :=
  isNaN_iff.mpr h

theorem isNaN_add_right (x : Float) (h : y.isNaN = true) : (x + y).isNaN = true := by
  have hadd := unpack_add (x := x) rfl (unpack_of_isNaN h)
  apply isNaN_of_unpack
  rw [hadd]
  cases x.toModel.unpack <;> exact unpack_pack_notANumber

theorem add_infinity_left (hx : x.toModel.unpack = .infinity .positive) (hy : 0 ≤ y) :
    (x + y).toModel.unpack = .infinity .positive := by
  obtain ⟨sign, hu⟩ | ⟨mantissa, exponent, hpos, hu⟩ | hu := unpack_nonneg hy <;>
    exact (unpack_add hx hu).trans (unpack_pack_infinity .positive)

theorem add_infinity_right (hx : 0 ≤ x) (hy : y.toModel.unpack = .infinity .positive) :
    (x + y).toModel.unpack = .infinity .positive := by
  obtain ⟨sign, hu⟩ | ⟨mantissa, exponent, hpos, hu⟩ | hu := unpack_nonneg hx <;>
    exact (unpack_add hu hy).trans (unpack_pack_infinity .positive)

theorem add_isNaN (hx : 0 ≤ x) (hy : 0 ≤ y) : (x + y).isNaN = false := by
  obtain ⟨hfx, -⟩ | hix := nonneg_cases hx
  · obtain ⟨hfy, -⟩ | hiy := nonneg_cases hy
    · exact (add_rounds hfx hfy).isNaN
    · exact isNaN_of_infinity (add_infinity_right hx hiy)
  · exact isNaN_of_infinity (add_infinity_left hix hy)

theorem add_le (hx : 0 ≤ x) (hy : 0 ≤ y) (hxx : x ≤ x') (hyy : y ≤ y') :
    x + y ≤ x' + y' := by
  have hx' := le_trans hx hxx
  have hy' := le_trans hy hyy
  obtain ⟨hfx, -⟩ | hix := nonneg_cases hx'
  · obtain ⟨hfy, -⟩ | hiy := nonneg_cases hy'
    · have hfx₀ := isFinite_of_le hx hfx hxx
      have hfy₀ := isFinite_of_le hy hfy hyy
      rw [le_iff_value hfx₀ hfx] at hxx
      rw [le_iff_value hfy₀ hfy] at hyy
      exact (add_rounds hfx₀ hfy₀).le (add_rounds hfx hfy) (by linarith)
    · exact le_infinity (add_isNaN hx hy) (add_infinity_right hx' hiy)
  · exact le_infinity (add_isNaN hx hy) (add_infinity_left hix hy')

theorem le_add_left (hx : 0 ≤ x) (hy : 0 ≤ y) : y ≤ x + y := by
  obtain ⟨hfx, hvx⟩ | hix := nonneg_cases hx
  · obtain ⟨hfy, -⟩ | hiy := nonneg_cases hy
    · exact (rounds_value hfy).le (add_rounds hfx hfy) (by linarith)
    · exact le_infinity (isNaN_of_nonneg hy) (add_infinity_right hx hiy)
  · exact le_infinity (isNaN_of_nonneg hy) (add_infinity_left hix hy)

theorem le_add_right (hx : 0 ≤ x) (hy : 0 ≤ y) : x ≤ x + y := by
  obtain ⟨hfx, -⟩ | hix := nonneg_cases hx
  · obtain ⟨hfy, hvy⟩ | hiy := nonneg_cases hy
    · exact (rounds_value hfx).le (add_rounds hfx hfy) (by linarith)
    · exact le_infinity (isNaN_of_nonneg hx) (add_infinity_right hx hiy)
  · exact le_infinity (isNaN_of_nonneg hx) (add_infinity_left hix hy)

-- ---------------------------------------------------------------------------
-- Products
-- ---------------------------------------------------------------------------

theorem unpack_mul {u v : UnpackedFloat} (hx : x.toModel.unpack = u) (hy : y.toModel.unpack = v) :
    (x * y).toModel.unpack = (Float.Model.pack (UnpackedFloat.mul .binary64 u v)).unpack := by
  rw [← hx, ← hy]
  rfl

theorem isNaN_mul_right (x : Float) (h : y.isNaN = true) : (x * y).isNaN = true := by
  have hmul := unpack_mul (x := x) rfl (unpack_of_isNaN h)
  apply isNaN_of_unpack
  rw [hmul]
  cases x.toModel.unpack <;> exact unpack_pack_notANumber

theorem mul_infinity_left (hx : x.toModel.unpack = .infinity .positive) (hy : 0 < y) :
    (x * y).toModel.unpack = .infinity .positive := by
  obtain ⟨mantissa, exponent, hpos, hu⟩ | hu := unpack_pos hy <;>
    exact (unpack_mul hx hu).trans (unpack_pack_infinity .positive)

theorem mul_infinity_right (hx : 0 < x) (hy : y.toModel.unpack = .infinity .positive) :
    (x * y).toModel.unpack = .infinity .positive := by
  obtain ⟨mantissa, exponent, hpos, hu⟩ | hu := unpack_pos hx <;>
    exact (unpack_mul hu hy).trans (unpack_pack_infinity .positive)

theorem zero_of_not_pos (hx : 0 ≤ x) (h : ¬ 0 < x) : ∃ sign, x.toModel.unpack = .zero sign := by
  obtain hu | ⟨mantissa, exponent, hpos, hu⟩ | hu := unpack_nonneg hx
  · exact hu
  · exact absurd (pos_of_finite hu) h
  · exact absurd (pos_of_infinity hu) h

theorem isFinite_of_infinity {sign : Sign} (h : x.toModel.unpack = .infinity sign) :
    x.isFinite = false := by
  show x.toModel.unpack.isFinite = false
  rw [h]
  rfl

/-- Zero times infinity is the one product that is not a number. -/
theorem mul_isNaN_iff (hx : 0 ≤ x) (hy : 0 ≤ y) :
    (x * y).isNaN = true ↔ (¬ 0 < x ∧ y.isFinite = false) ∨ (x.isFinite = false ∧ ¬ 0 < y) := by
  obtain ⟨hfx, -⟩ | hix := nonneg_cases hx
  · obtain ⟨hfy, -⟩ | hiy := nonneg_cases hy
    · simp only [(mul_rounds hfx hfy).isNaN, hfx, hfy, Bool.true_eq_false, Bool.false_eq_true,
        and_false, false_and, or_false]
    · by_cases hpos : 0 < x
      · simp only [isNaN_of_infinity (mul_infinity_right hpos hiy), hpos, hfx, not_true_eq_false,
          Bool.true_eq_false, Bool.false_eq_true, false_and, or_false]
      · obtain ⟨sign, hu⟩ := zero_of_not_pos hx hpos
        exact iff_of_true (isNaN_of_unpack ((unpack_mul hu hiy).trans unpack_pack_notANumber))
          (.inl ⟨hpos, isFinite_of_infinity hiy⟩)
  · by_cases hpos : 0 < y
    · simp only [isNaN_of_infinity (mul_infinity_left hix hpos), hpos, pos_of_infinity hix,
        not_true_eq_false, Bool.false_eq_true, false_and, and_false, or_false]
    · obtain ⟨sign, hu⟩ := zero_of_not_pos hy hpos
      exact iff_of_true (isNaN_of_unpack ((unpack_mul hix hu).trans unpack_pack_notANumber))
        (.inr ⟨isFinite_of_infinity hix, hpos⟩)

theorem nonneg_mul (hx : 0 ≤ x) (hy : 0 ≤ y) (hn : (x * y).isNaN = false) : 0 ≤ x * y := by
  obtain ⟨hfx, hvx⟩ | hix := nonneg_cases hx
  · obtain ⟨hfy, hvy⟩ | hiy := nonneg_cases hy
    · exact rounds_zero.le (mul_rounds hfx hfy) (mul_nonneg hvx hvy)
    · by_cases hpos : 0 < x
      · exact le_of_lt (pos_of_infinity (mul_infinity_right hpos hiy))
      · rw [(mul_isNaN_iff hx hy).mpr (.inl ⟨hpos, isFinite_of_infinity hiy⟩)] at hn
        cases hn
  · by_cases hpos : 0 < y
    · exact le_of_lt (pos_of_infinity (mul_infinity_left hix hpos))
    · rw [(mul_isNaN_iff hx hy).mpr (.inr ⟨isFinite_of_infinity hix, hpos⟩)] at hn
      cases hn

/-- Products keep their order, where they are numbers. -/
theorem mul_le (hx : 0 ≤ x) (hy : 0 ≤ y) (hxx : x ≤ x') (hyy : y ≤ y')
    (hn : (x * y).isNaN = false) (hn' : (x' * y').isNaN = false) : x * y ≤ x' * y' := by
  have hx' := le_trans hx hxx
  have hy' := le_trans hy hyy
  obtain ⟨hfx, -⟩ | hix := nonneg_cases hx'
  · obtain ⟨hfy, hvy⟩ | hiy := nonneg_cases hy'
    · have hfx₀ := isFinite_of_le hx hfx hxx
      have hfy₀ := isFinite_of_le hy hfy hyy
      rw [le_iff_value hfx₀ hfx] at hxx
      rw [le_iff_value hfy₀ hfy] at hyy
      rw [le_iff_value isFinite_zero hfx₀, value_zero] at hx
      exact (mul_rounds hfx₀ hfy₀).le (mul_rounds hfx hfy)
        ((mul_le_mul_of_nonneg_left hyy hx).trans (mul_le_mul_of_nonneg_right hxx hvy))
    · by_cases hpos : 0 < x'
      · exact le_infinity hn (mul_infinity_right hpos hiy)
      · rw [(mul_isNaN_iff hx' hy').mpr (.inl ⟨hpos, isFinite_of_infinity hiy⟩)] at hn'
        cases hn'
  · by_cases hpos : 0 < y'
    · exact le_infinity hn (mul_infinity_left hix hpos)
    · rw [(mul_isNaN_iff hx' hy').mpr (.inr ⟨isFinite_of_infinity hix, hpos⟩)] at hn'
      cases hn'

/-- One is neutral, also for infinities and for zeros with signs. -/
theorem mul_one_eq_self (h : x.isNaN = false) : x * 1 = x := by
  have hone : (1 : Float).toModel.unpack = .finite .positive (2 ^ 52) (-52) (by norm_num) := rfl
  have hsame {u : UnpackedFloat} (hu : x.toModel.unpack = u)
      (hmul : UnpackedFloat.mul .binary64 u (1 : Float).toModel.unpack = u) : x * 1 = x := by
    apply eq_of_toModel
    conv_rhs => rw [toModel_of_unpack hu, ← hmul, ← hu]
    rfl
  have hfinite (hf : x.isFinite = true) (hne : value x ≠ 0) : x * 1 = x := by
    have hmul := mul_rounds hf isFinite_one
    rw [value_one, mul_one] at hmul
    exact hmul.eq_of_ne_zero hf hne
  have h : x.toModel.unpack.isNaN = false := h
  cases hu : x.toModel.unpack with
  | notANumber => simp [hu, UnpackedFloat.isNaN] at h
  | infinity sign => exact hsame hu (by rw [hone]; cases sign <;> rfl)
  | zero sign => exact hsame hu (by rw [hone]; cases sign <;> rfl)
  | finite sign mantissa exponent hpos =>
    refine hfinite (isFinite_of_unpack (by rw [hu]; rfl)) ?_
    rw [value_of_finite hu, ← abs_pos, abs_signed, abs_pos]
    positivity

-- ---------------------------------------------------------------------------
-- Quotients
-- ---------------------------------------------------------------------------

/-- Quotients of finite doubles keep the order of what is divided and turn that of divisors. -/
theorem div_le (hx : 0 ≤ x) (hf : x'.isFinite = true) (hxx : x ≤ x') (hy : 0 < y')
    (hg : y.isFinite = true) (hyy : y' ≤ y) : x / y ≤ x' / y' := by
  have hfx := isFinite_of_le hx hf hxx
  have hgy := isFinite_of_le (le_of_lt hy) hg hyy
  have hpos' := value_pos hgy hy
  have hpos := value_pos hg (lt_of_lt_of_le hy hyy)
  have hnonneg := value_nonneg hf (le_trans hx hxx)
  rw [le_iff_value hfx hf] at hxx
  rw [le_iff_value hgy hg] at hyy
  exact (div_rounds hfx hg hpos.ne').le (div_rounds hf hgy hpos'.ne')
    (div_le_div₀ hnonneg hxx hpos' hyy)

theorem nonneg_div (hx : 0 ≤ x) (hf : x.isFinite = true) (hy : 0 < y) (hg : y.isFinite = true) :
    0 ≤ x / y := by
  have hpos := value_pos hg hy
  exact rounds_zero.le (div_rounds hf hg hpos.ne') (div_nonneg (value_nonneg hf hx) hpos.le)

theorem div_mem_unit (hx : 0 ≤ x) (hy : 0 < y) (hg : y.isFinite = true) (h : x ≤ y) :
    0 ≤ x / y ∧ x / y ≤ 1 := by
  have hfx := isFinite_of_le hx hg h
  have hpos := value_pos hg hy
  have hdiv := div_rounds hfx hg hpos.ne'
  rw [le_iff_value hfx hg] at h
  exact ⟨nonneg_div hx hfx hy hg, hdiv.le rounds_one ((div_le_one hpos).mpr h)⟩

end

end FairProgram.Double
