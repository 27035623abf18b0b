import FairProgram.Proofs.Double.Arithmetic
import Mathlib

/-!
# Doubles compared by their values

Finite doubles compare as their values do, and rounding keeps the order of what it rounds, up to the
infinities (`Rounds.le`).
-/

namespace FairProgram.Double

open Float.Model Float.Model.UnpackedFloat

section
variable {mantissa mantissa' : Nat} {exponent exponent' : ℤ}

theorem Canonical.value_lt (h : Canonical mantissa exponent) (h' : Canonical mantissa' exponent')
    (hlt : toLex (exponent, (mantissa : ℤ)) < toLex (exponent', (mantissa' : ℤ))) :
    (mantissa : ℚ) * 2 ^ exponent < mantissa' * 2 ^ exponent' := by
  obtain hlt | ⟨heq, hlt⟩ := Prod.Lex.toLex_lt_toLex.mp hlt
  · have hlt : exponent < exponent' := hlt
    have hm : (mantissa : ℚ) < 2 ^ 53 := by exact_mod_cast h.lt
    have hm' : (2 : ℚ) ^ 52 ≤ mantissa' := by
      exact_mod_cast h'.leading (h.least.trans_lt hlt)
    calc (mantissa : ℚ) * 2 ^ exponent < 2 ^ 53 * 2 ^ exponent :=
          mul_lt_mul_of_pos_right hm (by positivity)
      _ = 2 ^ (53 + exponent) := by rw [zpow_add₀ two_ne_zero]; rfl
      _ ≤ 2 ^ (52 + exponent') := zpow_le_zpow_right₀ one_le_two (by omega)
      _ = 2 ^ 52 * 2 ^ exponent' := by rw [zpow_add₀ two_ne_zero]; rfl
      _ ≤ mantissa' * 2 ^ exponent' := mul_le_mul_of_nonneg_right hm' (by positivity)
  · obtain rfl : exponent = exponent' := heq
    have hlt : (mantissa : ℤ) < mantissa' := hlt
    exact mul_lt_mul_of_pos_right (by exact_mod_cast hlt) (by positivity)

theorem Canonical.lt_iff (h : Canonical mantissa exponent) (h' : Canonical mantissa' exponent') :
    toLex (exponent, (mantissa : ℤ)) < toLex (exponent', (mantissa' : ℤ)) ↔
      (mantissa : ℚ) * 2 ^ exponent < mantissa' * 2 ^ exponent' := by
  constructor
  · exact h.value_lt h'
  · intro hlt
    obtain hc | hc | hc := lt_trichotomy (toLex (exponent, (mantissa : ℤ)))
      (toLex (exponent', (mantissa' : ℤ)))
    · exact hc
    · obtain ⟨rfl, hm⟩ := Prod.mk.inj (toLex.injective hc)
      rw [Int.natCast_inj.mp hm] at hlt
      exact absurd hlt (lt_irrefl _)
    · exact absurd (h'.value_lt h hc) hlt.not_gt

end

section
variable {x y : Float} {q r : ℚ}

theorem rank_lt_rank_iff (hx : x.isFinite = true) (hy : y.isFinite = true) :
    rank x.toModel.unpack < rank y.toModel.unpack ↔ value x < value y := by
  obtain ⟨sign, hux⟩ | ⟨sign, mantissa, exponent, hpos, hux⟩ := finite_cases hx
  · obtain ⟨sign', huy⟩ | ⟨sign', mantissa', exponent', hpos', huy⟩ := finite_cases hy
    · simp [value_of_zero hux, value_of_zero huy, hux, huy, rank]
    · have hv : (0 : ℚ) < mantissa' * 2 ^ exponent' := by positivity
      rw [value_of_zero hux, value_of_finite huy, hux, huy]
      cases sign' <;> simp [rank, signed, Prod.Lex.toLex_lt_toLex] <;> linarith
  · obtain ⟨sign', huy⟩ | ⟨sign', mantissa', exponent', hpos', huy⟩ := finite_cases hy
    · have hv : (0 : ℚ) < mantissa * 2 ^ exponent := by positivity
      rw [value_of_finite hux, value_of_zero huy, hux, huy]
      cases sign <;> simp [rank, signed, Prod.Lex.toLex_lt_toLex] <;> linarith
    · have hv : (0 : ℚ) < mantissa * 2 ^ exponent := by positivity
      have hv' : (0 : ℚ) < mantissa' * 2 ^ exponent' := by positivity
      have hc := (canonical_of_unpack hux).1
      have hc' := (canonical_of_unpack huy).1
      rw [value_of_finite hux, value_of_finite huy, hux, huy]
      cases sign <;> cases sign'
      · rw [signed, signed, neg_lt_neg_iff, ← hc'.lt_iff hc]
        simp [rank, Prod.Lex.toLex_lt_toLex, eq_comm]
      · simp [rank, signed, Prod.Lex.toLex_lt_toLex]
        linarith
      · simp [rank, signed, Prod.Lex.toLex_lt_toLex]
        linarith
      · rw [signed, signed, ← hc.lt_iff hc']
        simp [rank, Prod.Lex.toLex_lt_toLex]

theorem lt_iff_value (hx : x.isFinite = true) (hy : y.isFinite = true) :
    x < y ↔ value x < value y := by
  rw [lt_iff, ← rank_lt_rank_iff hx hy]
  exact ⟨fun h => h.2.2, fun h => ⟨isNaN_of_isFinite hx, isNaN_of_isFinite hy, h⟩⟩

theorem le_iff_value (hx : x.isFinite = true) (hy : y.isFinite = true) :
    x ≤ y ↔ value x ≤ value y := by
  rw [le_iff, ← not_lt, ← not_lt, ← rank_lt_rank_iff hy hx]
  exact ⟨fun h => h.2.2, fun h => ⟨isNaN_of_isFinite hx, isNaN_of_isFinite hy, h⟩⟩

/-- Doubles of one value other than zero are the same. -/
theorem eq_of_value (hx : x.isFinite = true) (hy : y.isFinite = true) (h : value x = value y)
    (hne : value x ≠ 0) : x = y := by
  have hrank : rank x.toModel.unpack = rank y.toModel.unpack := by
    apply le_antisymm
    · rw [← not_lt, rank_lt_rank_iff hy hx, h]
      exact lt_irrefl _
    · rw [← not_lt, rank_lt_rank_iff hx hy, h]
      exact lt_irrefl _
  have hunpack : x.toModel.unpack = y.toModel.unpack := by
    obtain ⟨sign, hux⟩ | ⟨sign, mantissa, exponent, hpos, hux⟩ := finite_cases hx
    · exact absurd (value_of_zero hux) hne
    obtain ⟨sign', huy⟩ | ⟨sign', mantissa', exponent', hpos', huy⟩ := finite_cases hy
    · exact absurd (h.trans (value_of_zero huy)) hne
    rw [hux, huy] at hrank ⊢
    cases sign <;> cases sign' <;> simp_all [rank, Prod.ext_iff]
  exact eq_of_toModel ((toModel_of_unpack hunpack).trans (toModel_of_unpack rfl).symm)

theorem Rounds.eq_of_ne_zero (h : Rounds x (value y)) (hy : y.isFinite = true)
    (hne : value y ≠ 0) : x = y := by
  obtain ⟨hf, hv⟩ := h.of_value
  exact eq_of_value hf hy hv (hv ▸ hne)

theorem le_infinity (hx : x.isNaN = false) (hy : y.toModel.unpack = .infinity .positive) :
    x ≤ y := by
  have hx' : x.toModel.unpack.isNaN = false := hx
  refine le_iff.mpr ⟨hx, by show y.toModel.unpack.isNaN = false; rw [hy]; rfl, ?_⟩
  rw [hy]
  cases hu : x.toModel.unpack with
  | notANumber => simp [hu, UnpackedFloat.isNaN] at hx'
  | infinity sign => cases sign <;> decide
  | zero _ | finite _ _ _ _ => exact (rank_of_isFinite rfl).2.le

theorem infinity_le (hx : x.toModel.unpack = .infinity .negative) (hy : y.isNaN = false) :
    x ≤ y := by
  have hy' : y.toModel.unpack.isNaN = false := hy
  refine le_iff.mpr ⟨by show x.toModel.unpack.isNaN = false; rw [hx]; rfl, hy, ?_⟩
  rw [hx]
  cases hu : y.toModel.unpack with
  | notANumber => simp [hu, UnpackedFloat.isNaN] at hy'
  | infinity sign => cases sign <;> decide
  | zero _ | finite _ _ _ _ => exact (rank_of_isFinite rfl).1.le

/-- A double that is a number is finite or one of two infinities. -/
theorem eq_infinity (hx : x.isNaN = false) :
    x.isFinite = true ∨ x = 1 / 0 ∨ x = -1 / 0 := by
  have hx' : x.toModel.unpack.isNaN = false := hx
  cases hu : x.toModel.unpack with
  | notANumber => simp [hu, UnpackedFloat.isNaN] at hx'
  | infinity sign =>
    right
    cases sign with
    | positive =>
      have hinf : (1 / 0 : Float).toModel.unpack = .infinity .positive := rfl
      exact .inl (eq_of_toModel ((toModel_of_unpack hu).trans (toModel_of_unpack hinf).symm))
    | negative =>
      have hinf : (-1 / 0 : Float).toModel.unpack = .infinity .negative := rfl
      exact .inr (eq_of_toModel ((toModel_of_unpack hu).trans (toModel_of_unpack hinf).symm))
  | zero _ | finite _ _ _ _ =>
    exact .inl (isFinite_of_unpack (by rw [hu]; rfl))

theorem isFinite_of_lt_infinity (h : -1 / 0 < x) (h' : x < 1 / 0) : x.isFinite = true := by
  obtain hf | rfl | rfl := eq_infinity (lt_iff.mp h').1
  · exact hf
  · exact absurd (le_of_lt h') (not_le_of_lt h')
  · exact absurd (le_of_lt h) (not_le_of_lt h)

/-- Rounding is monotone up to the infinities. -/
theorem Rounds.le (hx : Rounds x q) (hy : Rounds y r) (h : q ≤ r) : x ≤ y := by
  have hmono := nearest_mono h
  have hxn := hx.isNaN
  have hyn := hy.isNaN
  unfold Rounds at hx hy
  split at hx
  · rename_i hfx
    split at hy
    · rw [le_iff_value hx.1 hy.1, hx.2, hy.2]
      exact hmono
    · rename_i hfy
      by_cases hr : r < 0
      · have hnearest : nearest r ≤ 0 := nearest_zero ▸ nearest_mono hr.le
        rw [abs_of_nonpos hnearest] at hfy
        rw [abs_of_nonpos (hmono.trans hnearest)] at hfx
        linarith
      · rw [if_neg hr] at hy
        exact le_infinity hxn hy
  · rename_i hfx
    by_cases hq : q < 0
    · rw [if_pos hq] at hx
      exact infinity_le hx hyn
    · have hnearest : 0 ≤ nearest q := nearest_nonneg (not_lt.mp hq)
      split at hy
      · rename_i hfy
        rw [abs_of_nonneg hnearest] at hfx
        rw [abs_of_nonneg (hnearest.trans hmono)] at hfy
        linarith
      · rw [if_neg (by linarith)] at hy
        exact le_infinity hxn hy

end

end FairProgram.Double
