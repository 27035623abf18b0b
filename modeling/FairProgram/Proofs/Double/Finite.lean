import FairProgram.Proofs.Double.Error
import FairProgram.Proofs.Double.Nonneg
import Mathlib

/-!
# Finite results

A number becomes infinite only from half a last place above the greatest double on
(`Rounds.isFinite`). What is infinite or not a number stays so in sums, differences, products and
square roots, and as what is divided, so that finite results tell finite operands. Quotients of
infinities are not numbers (`isNaN_div`), and square roots of finite doubles are finite
(`isFinite_sqrt`).
-/

namespace FairProgram.Double

open Float.Model Float.Model.UnpackedFloat

variable {x y : Float} {q : ℚ}

-- ---------------------------------------------------------------------------
-- Below the greatest double
-- ---------------------------------------------------------------------------

/-- Half a last place is at most `2 ^ 970`. -/
theorem abs_nearest_sub_le_of_lt (h : |q| < 2 ^ (1024 : ℤ)) : |nearest q - q| ≤ 2 ^ (970 : ℤ) := by
  by_cases hq : q = 0
  · rw [hq, nearest_zero, sub_zero, abs_zero]
    positivity
  have hplace : lastPlace q ≤ 971 := lastPlace_le (by norm_num) hq h
  calc |nearest q - q| ≤ 2 ^ lastPlace q / 2 := abs_nearest_sub_le_half q
    _ ≤ 2 ^ (970 + 1 : ℤ) / 2 :=
      div_le_div_of_nonneg_right (zpow_le_zpow_right₀ one_le_two hplace) zero_le_two
    _ = 2 ^ (970 : ℤ) := by rw [zpow_add_one₀ two_ne_zero, mul_div_cancel_right₀ _ two_ne_zero]

theorem abs_nearest_lt (h : |q| < 2 ^ (1024 : ℤ) - 2 ^ (970 : ℤ)) :
    |nearest q| < 2 ^ (1024 : ℤ) := by
  have herror := abs_nearest_sub_le_of_lt (h.trans_le (sub_le_self _ (by positivity)))
  have := abs_sub_abs_le_abs_sub (nearest q) q
  linarith

theorem Rounds.isFinite (h : Rounds x q) (hlt : |q| < 2 ^ (1024 : ℤ) - 2 ^ (970 : ℤ)) :
    x.isFinite = true :=
  (h.of_lt (abs_nearest_lt hlt)).1

/-- Doubles stay a last place away from `2 ^ 1024`. -/
theorem abs_value_le (x : Float) : |value x| ≤ 2 ^ (1024 : ℤ) - 2 ^ (971 : ℤ) := by
  obtain ⟨m, e, hm, -, he, hx⟩ := value_mem_grid x
  have hm : |(m : ℚ)| ≤ 2 ^ (53 : ℤ) - 1 := by
    have : |m| ≤ 2 ^ 53 - 1 := Int.le_sub_one_of_lt hm
    exact_mod_cast this
  rw [hx, abs_mul, abs_of_pos (show (0 : ℚ) < 2 ^ e by positivity)]
  calc |(m : ℚ)| * 2 ^ e ≤ (2 ^ (53 : ℤ) - 1) * 2 ^ (971 : ℤ) :=
        mul_le_mul hm (zpow_le_zpow_right₀ one_le_two he) (by positivity) (by norm_num)
    _ = 2 ^ (53 + 971 : ℤ) - 2 ^ (971 : ℤ) := by
        rw [sub_mul, one_mul, ← zpow_add₀ two_ne_zero]

/-- What is less than half of the last place of the greatest double does not make it infinite. -/
theorem isFinite_add_small (hx : x.isFinite = true) (hy : y.isFinite = true)
    (h : |value y| < 2 ^ (970 : ℤ)) : (x + y).isFinite = true := by
  refine (add_rounds hx hy).isFinite ?_
  have htwice : (2 : ℚ) ^ (971 : ℤ) = 2 ^ (970 : ℤ) + 2 ^ (970 : ℤ) := by
    rw [← mul_two]
    exact zpow_add_one₀ two_ne_zero 970
  calc |value x + value y| ≤ |value x| + |value y| := abs_add_le _ _
    _ < 2 ^ (1024 : ℤ) - 2 ^ (971 : ℤ) + 2 ^ (970 : ℤ) := add_lt_add_of_le_of_lt (abs_value_le x) h
    _ = 2 ^ (1024 : ℤ) - 2 ^ (970 : ℤ) := by rw [htwice, sub_add_eq_sub_sub, sub_add_cancel]

theorem nearest_zpow {e : ℤ} (he : -1074 ≤ e) : nearest (2 ^ e) = 2 ^ e := by
  have h := nearest_mul_zpow (m := 1) (by norm_num) he
  rwa [Int.cast_one, one_mul] at h

theorem nearest_abs (q : ℚ) : nearest |q| = |nearest q| := by
  obtain hq | hq := le_total 0 q
  · rw [abs_of_nonneg hq, abs_of_nonneg (nearest_nonneg hq)]
  · rw [abs_of_nonpos hq, nearest_neg, ← abs_neg (nearest q), ← nearest_neg,
      abs_of_nonneg (nearest_nonneg (neg_nonneg.mpr hq))]

theorem abs_nearest_le {e : ℤ} (he : -1074 ≤ e) (h : |q| ≤ 2 ^ e) : |nearest q| ≤ 2 ^ e := by
  rw [← nearest_abs, ← nearest_zpow he]
  exact nearest_mono h

theorem abs_lt_of_abs_nearest_lt {e : ℤ} (he : -1074 ≤ e) (h : |nearest q| < 2 ^ e) :
    |q| < 2 ^ e := by
  rw [← nearest_abs, ← nearest_zpow he] at h
  exact nearest_mono.reflect_lt h

theorem Rounds.abs_value_sub_le (h : Rounds x q) (hf : x.isFinite = true) :
    |value x - q| ≤ 2 ^ (970 : ℤ) := by
  have hlt := abs_value_lt x
  rw [h.value_eq hf] at hlt ⊢
  exact abs_nearest_sub_le_of_lt (abs_lt_of_abs_nearest_lt (by norm_num) hlt)

/-- What is bounded by a power of two is not rounded beyond it. -/
theorem Rounds.abs_value_le (h : Rounds x q) {e : ℤ} (hleast : -1074 ≤ e) (hmost : e ≤ 1023)
    (hle : |q| ≤ 2 ^ e) : x.isFinite = true ∧ |value x| ≤ 2 ^ e := by
  have hnearest := abs_nearest_le hleast hle
  obtain ⟨hf, hv⟩ :=
    h.of_lt (hnearest.trans_lt (zpow_lt_zpow_right₀ one_lt_two (Int.lt_of_le_sub_one hmost)))
  exact ⟨hf, hv ▸ hnearest⟩

-- ---------------------------------------------------------------------------
-- Operands of finite results
-- ---------------------------------------------------------------------------

@[simp] theorem isFinite_unpackedNaN : UnpackedFloat.notANumber.isFinite = false := rfl

@[simp] theorem isFinite_unpackedInfinity (sign : Sign) :
    (UnpackedFloat.infinity sign).isFinite = false := rfl

@[simp] theorem isFinite_unpackedZero (sign : Sign) :
    (UnpackedFloat.zero sign).isFinite = true := rfl

@[simp] theorem isFinite_unpackedFinite {sign : Sign} {mantissa : Nat} {exponent : ℤ}
    (hpos : 0 < mantissa) : (UnpackedFloat.finite sign mantissa exponent hpos).isFinite = true :=
  rfl

theorem isFinite_of_pack {u : UnpackedFloat} (h : (Float.Model.pack u).unpack.isFinite = true) :
    u.isFinite = true := by
  cases u with
  | notANumber => cases h
  | infinity sign =>
    rw [unpack_pack_infinity] at h
    cases h
  | zero _ | finite _ _ _ _ => rfl

theorem isFinite_of_add (h : (x + y).isFinite = true) : x.isFinite = true ∧ y.isFinite = true := by
  have hoperands {u v : UnpackedFloat} (h : (UnpackedFloat.add .binary64 u v).isFinite = true) :
      u.isFinite = true ∧ v.isFinite = true := by
    cases u <;> cases v <;> simp [UnpackedFloat.add, apply_ite UnpackedFloat.isFinite] at h ⊢
  exact hoperands (isFinite_of_pack h)

theorem isFinite_of_sub (h : (x - y).isFinite = true) : x.isFinite = true ∧ y.isFinite = true := by
  rw [sub_eq_add] at h
  rw [← isFinite_neg y]
  exact isFinite_of_add h

theorem isFinite_of_mul (h : (x * y).isFinite = true) : x.isFinite = true ∧ y.isFinite = true := by
  have hoperands {u v : UnpackedFloat} (h : (UnpackedFloat.mul .binary64 u v).isFinite = true) :
      u.isFinite = true ∧ v.isFinite = true := by
    cases u <;> cases v <;> simp [UnpackedFloat.mul] at h ⊢
  exact hoperands (isFinite_of_pack h)

/-- A divisor can be infinite. -/
theorem isFinite_of_div (h : (x / y).isFinite = true) : x.isFinite = true := by
  have hdividend {u v : UnpackedFloat} (h : (UnpackedFloat.div .binary64 u v).isFinite = true) :
      u.isFinite = true := by
    cases u <;> cases v <;> simp [UnpackedFloat.div] at h ⊢
  exact hdividend (isFinite_of_pack h)

theorem isFinite_of_sqrt (h : x.sqrt.isFinite = true) : x.isFinite = true := by
  have hoperand {u : UnpackedFloat} (h : (UnpackedFloat.sqrt .binary64 u).isFinite = true) :
      u.isFinite = true := by
    cases u with
    | infinity sign => cases sign <;> cases h
    | notANumber => cases h
    | zero _ | finite _ _ _ _ => rfl
  exact hoperand (isFinite_of_pack h)

-- ---------------------------------------------------------------------------
-- Results that are not numbers
-- ---------------------------------------------------------------------------

theorem isNaN_abs (h : x.isNaN = true) : x.abs.isNaN = true := by
  have habs : x.abs.toModel = Float.Model.pack x.toModel.unpack.abs := rfl
  rw [unpack_of_isNaN h] at habs
  exact isNaN_of_unpack (habs ▸ unpack_pack_notANumber)

theorem isNaN_add_left (h : x.isNaN = true) (y : Float) : (x + y).isNaN = true :=
  isNaN_of_unpack ((unpack_add (unpack_of_isNaN h) rfl).trans unpack_pack_notANumber)

theorem isNaN_sub_left (h : x.isNaN = true) (y : Float) : (x - y).isNaN = true := by
  rw [sub_eq_add]
  exact isNaN_add_left h (-y)

theorem isNaN_sub_right (x : Float) (h : y.isNaN = true) : (x - y).isNaN = true := by
  rw [sub_eq_add]
  exact isNaN_add_right x ((isNaN_neg y).trans h)

theorem isNaN_mul_left (h : x.isNaN = true) (y : Float) : (x * y).isNaN = true :=
  isNaN_of_unpack ((unpack_mul (unpack_of_isNaN h) rfl).trans unpack_pack_notANumber)

theorem unpack_div {u v : UnpackedFloat} (hx : x.toModel.unpack = u) (hy : y.toModel.unpack = v) :
    (x / y).toModel.unpack = (Float.Model.pack (UnpackedFloat.div .binary64 u v)).unpack := by
  rw [← hx, ← hy]
  rfl

theorem isNaN_div_right (x : Float) (h : y.isNaN = true) : (x / y).isNaN = true := by
  have hdiv := unpack_div (x := x) rfl (unpack_of_isNaN h)
  apply isNaN_of_unpack
  rw [hdiv]
  cases x.toModel.unpack <;> exact unpack_pack_notANumber

theorem isNaN_div (hx : x.isFinite = false) (hy : y.isFinite = false) : (x / y).isNaN = true := by
  have hx : x.toModel.unpack.isFinite = false := hx
  have hy : y.toModel.unpack.isFinite = false := hy
  apply isNaN_of_unpack
  rw [unpack_div rfl rfl]
  generalize x.toModel.unpack = u, y.toModel.unpack = v at hx hy ⊢
  cases u <;> cases v <;> simp at hx hy <;> exact unpack_pack_notANumber

-- ---------------------------------------------------------------------------
-- Infinite results
-- ---------------------------------------------------------------------------

theorem exists_infinity (hn : x.isNaN = false) (hf : x.isFinite = false) :
    ∃ sign, x.toModel.unpack = .infinity sign := by
  have hn : x.toModel.unpack.isNaN = false := hn
  have hf : x.toModel.unpack.isFinite = false := hf
  cases hu : x.toModel.unpack with
  | infinity sign => exact ⟨sign, rfl⟩
  | notANumber => rw [hu] at hn; cases hn
  | zero _ | finite _ _ _ _ => rw [hu] at hf; cases hf

theorem infinity_add {sign : Sign} (hx : x.toModel.unpack = .infinity sign)
    (hy : y.isFinite = true) : (x + y).toModel.unpack = .infinity sign := by
  obtain ⟨sign', hu⟩ | ⟨sign', mantissa, exponent, hpos, hu⟩ := finite_cases hy <;>
    exact (unpack_add hx hu).trans (unpack_pack_infinity sign)

theorem sub_infinity {sign : Sign} (hx : x.isFinite = true)
    (hy : y.toModel.unpack = .infinity sign) : (x - y).toModel.unpack = .infinity (-sign) := by
  have hneg : (-y).toModel.unpack = .infinity (-sign) := by
    rw [unpack_neg, hy]
    rfl
  rw [sub_eq_add]
  obtain ⟨sign', hu⟩ | ⟨sign', mantissa, exponent, hpos, hu⟩ := finite_cases hx <;>
    exact (unpack_add hu hneg).trans (unpack_pack_infinity _)

theorem infinity_mul_self {sign : Sign} (hx : x.toModel.unpack = .infinity sign) :
    (x * x).toModel.unpack = .infinity .positive := by
  rw [unpack_mul hx hx]
  cases sign <;> exact unpack_pack_infinity .positive

theorem infinity_div {sign : Sign} (hx : x.toModel.unpack = .infinity sign) (hy : 0 < y)
    (hf : y.isFinite = true) : (x / y).toModel.unpack = .infinity sign := by
  obtain ⟨mantissa, exponent, hpos, hu⟩ | hu := unpack_pos hy
  · rw [unpack_div hx hu]
    cases sign <;> exact unpack_pack_infinity _
  · rw [isFinite_of_infinity hu] at hf
    cases hf

theorem sqrt_infinity (hx : x.toModel.unpack = .infinity .positive) :
    x.sqrt.toModel.unpack = .infinity .positive := by
  have hsqrt : x.sqrt.toModel = Float.Model.pack (UnpackedFloat.sqrt .binary64 x.toModel.unpack) :=
    rfl
  rw [hsqrt, hx]
  exact unpack_pack_infinity .positive

-- ---------------------------------------------------------------------------
-- Square roots
-- ---------------------------------------------------------------------------

/-- What is left of a number below its root tells how far on the way to the next whole number the
exact root is: not at all, less than a half or more than a half. -/
theorem describes_root (m : Nat) : ∃ q : ℚ, m.sqrt ≤ q ∧ q < m.sqrt + 1 ∧
    Describes (.ofMantissaAndAccuracy m.sqrt
      (if m - m.sqrt * m.sqrt = 0 then .exact
        else .inexact (if m - m.sqrt * m.sqrt ≤ m.sqrt then .lt else .gt))) q := by
  -- Which part below or above a half it is does not show.
  split_ifs
  · exact ⟨_, le_rfl, lt_add_one _, describes_exact m.sqrt⟩
  · refine ⟨m.sqrt + (1 : ℕ) / (4 : ℕ), ?_, ?_, describes_accuracyOfFraction m.sqrt (by norm_num)⟩
    · exact le_add_of_nonneg_right (by positivity)
    · exact add_lt_add_right (by norm_num) _
  · refine ⟨m.sqrt + (3 : ℕ) / (4 : ℕ), ?_, ?_, describes_accuracyOfFraction m.sqrt (by norm_num)⟩
    · exact le_add_of_nonneg_right (by positivity)
    · exact add_lt_add_right (by norm_num) _

/-- A root is taken with so many places that the last one of the double is among them, or with as
many as the least double has. -/
theorem sqrtCore_isNearest {mantissa root : Nat} {exponent place : ℤ} {accuracy : Accuracy}
    (hpos : 0 < mantissa)
    (hcore : sqrtCore .binary64 mantissa exponent = (root, place, accuracy)) :
    ∃ q : ℚ, 0 < q ∧ q ^ 2 ≤ 4 * (mantissa * 2 ^ exponent) ∧
      IsNearest (roundWithAccuracy .binary64 .positive root place accuracy) .positive q := by
  set total := totalExponent mantissa exponent with htotal
  set least := min (exponent.ediv 2) (Format.binary64.targetExponent ((total + 1).ediv 2))
    with hleast
  have hhalf : exponent.ediv 2 = exponent / 2 := rfl
  have htarget : Format.binary64.targetExponent ((total + 1).ediv 2) =
      max ((total + 1) / 2 - 53) (-1074) := rfl
  have hlog : total = mantissa.log2 + 1 + exponent := rfl
  obtain ⟨shift, hshift⟩ : ∃ shift : Nat, 2 * least + shift = exponent :=
    ⟨(exponent - 2 * least).toNat, by omega⟩
  have hamount : (exponent - 2 * least).toNat = shift := by omega
  set scaled := mantissa <<< shift with hscaled
  have hscaledPos : 0 < scaled := by
    rw [hscaled, Nat.shiftLeft_eq]
    positivity
  obtain ⟨q, hle, hlt, hdescribes⟩ := describes_root scaled
  rw [sqrtCore, ← htotal, ← hleast, hamount, ← hscaled] at hcore
  obtain ⟨hroot, hplace, haccuracy⟩ := by simpa only [Prod.mk.injEq] using hcore
  rw [← hroot, ← hplace, ← haccuracy]
  have hrootPos : 0 < scaled.sqrt := Nat.sqrt_pos.mpr hscaledPos
  have hone : (1 : ℚ) ≤ scaled.sqrt := by exact_mod_cast hrootPos
  have hq : 0 < q := by linarith
  refine ⟨q * 2 ^ least, by positivity, ?_, ?_⟩
  · have hsquare : (scaled.sqrt : ℚ) ^ 2 ≤ scaled := by exact_mod_cast Nat.sqrt_le' scaled
    have hvalue : (scaled : ℚ) * (2 ^ least) ^ 2 = mantissa * 2 ^ exponent := by
      rw [hscaled, Nat.shiftLeft_eq, ← hshift, zpow_add₀ two_ne_zero, two_mul,
        zpow_add₀ two_ne_zero, zpow_natCast]
      push_cast
      ring
    calc (q * 2 ^ least) ^ 2 ≤ (2 * scaled.sqrt * 2 ^ least) ^ 2 := by
          gcongr
          linarith
      _ = 4 * ((scaled.sqrt : ℚ) ^ 2 * (2 ^ least) ^ 2) := by ring
      _ ≤ 4 * (scaled * (2 ^ least) ^ 2) := by gcongr
      _ = 4 * (mantissa * 2 ^ exponent) := by rw [hvalue]
  · have hlast : lastPlace (q * 2 ^ least) = _ := lastPlace_of_mantissa hrootPos hle hlt
    refine roundWithAccuracy_isNearest hq hdescribes hlast ?_
    rw [hlast, targetExponent_eq]
    obtain hsmall | hlarge := le_or_gt least (-1074)
    · omega
    · have hplaces : 2 ^ 52 * 2 ^ 52 ≤ scaled := by
        calc 2 ^ 52 * 2 ^ 52 = 2 ^ 104 := rfl
          _ ≤ 2 ^ (mantissa.log2 + shift) := Nat.pow_le_pow_right two_pos (by omega)
          _ = 2 ^ mantissa.log2 * 2 ^ shift := Nat.pow_add _ _ _
          _ ≤ mantissa * 2 ^ shift := Nat.mul_le_mul_right _ (Nat.log2_self_le hpos.ne')
          _ = scaled := by rw [hscaled, Nat.shiftLeft_eq]
      have hroot : 52 ≤ scaled.sqrt.log2 := by
        rw [Nat.le_log2 hrootPos.ne', Nat.le_sqrt]
        exact hplaces
      omega

theorem isFinite_sqrt (hx : 0 ≤ x) (hf : x.isFinite = true) : x.sqrt.isFinite = true := by
  have hsqrt : x.sqrt.toModel = Float.Model.pack (UnpackedFloat.sqrt .binary64 x.toModel.unpack) :=
    rfl
  obtain ⟨sign, hu⟩ | ⟨mantissa, exponent, hpos, hu⟩ | hu := unpack_nonneg hx
  · rw [hu] at hsqrt
    exact isFinite_of_unpack (by rw [hsqrt, UnpackedFloat.sqrt, unpack_pack_zero]; rfl)
  · rcases hcore : sqrtCore .binary64 mantissa exponent with ⟨root, place, accuracy⟩
    rw [hu, UnpackedFloat.sqrt, hcore] at hsqrt
    obtain ⟨q, hq, hsquare, hnearest⟩ := sqrtCore_isNearest hpos hcore
    refine ((hnearest.rounds hq hsqrt).abs_value_le (e := 1023) (by norm_num) le_rfl ?_).1
    have hvalue := abs_value_lt x
    rw [value_of_finite hu, abs_signed, abs_of_pos (by positivity)] at hvalue
    rw [abs_signed, abs_of_pos hq]
    have hfour : (4 : ℚ) * 2 ^ (1024 : ℤ) = (2 ^ (513 : ℤ)) ^ 2 := by
      rw [show (4 : ℚ) = 2 ^ (2 : ℤ) by norm_num, ← zpow_add₀ two_ne_zero, ← zpow_natCast,
        ← zpow_mul]
      rfl
    have hlt : q ^ 2 < ((2 : ℚ) ^ (513 : ℤ)) ^ 2 := by
      rw [← hfour]
      linarith
    exact (lt_of_pow_lt_pow_left₀ 2 (by positivity) hlt).le.trans
      (zpow_le_zpow_right₀ one_le_two (by norm_num))
  · rw [isFinite_of_infinity hu] at hf
    cases hf

end FairProgram.Double
