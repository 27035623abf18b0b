import FairProgram.Double
import FairProgram.Proofs.Double.Nonneg
import Mathlib

/-!
# Doubles by their bits

The sign, the places and the exponent that the bits of a finite double spell are those of its value
(`value_eq_ofFloat`). A double that is not negative is rounded to whole units from its value
(`wholeUnits_eq_floor`).
-/

namespace FairProgram.Double

open Float.Model Float.Model.UnpackedFloat Whole

theorem toNat_unpackExponent (bits : BitVec 64) :
    (@unpackExponent .binary64 bits).toNat = bits.toNat / powTwo 52 % powTwo 11 := by
  simp [unpackExponent, powTwo, BitVec.extractLsb, Nat.shiftRight_eq_div_pow]

theorem toNat_unpackMantissa (bits : BitVec 64) :
    (@unpackMantissa .binary64 bits).toNat = bits.toNat % powTwo 52 := by
  simp [unpackMantissa, powTwo, BitVec.extractLsb]

theorem toNat_unpackSign (bits : BitVec 64) :
    (@unpackSign .binary64 bits).toNat = bits.toNat / powTwo 63 := by
  have := bits.isLt
  simp [unpackSign, powTwo, BitVec.extractLsb, Nat.shiftRight_eq_div_pow]
  omega

theorem ofBitVec_unpackSign (bits : BitVec 64) : Sign.ofBitVec (@unpackSign .binary64 bits) =
    if bits.toNat / powTwo 63 == 1 then .negative else .positive := by
  rw [← toNat_unpackSign]
  generalize @unpackSign .binary64 bits = sign
  obtain rfl | rfl := BitVec.eq_zero_or_eq_one sign <;> rfl

/-- The bits of a finite double spell its sign, its places and its exponent. -/
theorem unpack_eq_ofFloat {x : Float} (h : x.isFinite = true) :
    let sign := if (ofFloat x).negative then Sign.negative else .positive
    (x.toModel.unpack = .zero sign ∧ (ofFloat x).mantissa = 0) ∨
      ∃ hpos, x.toModel.unpack = .finite sign (ofFloat x).mantissa (ofFloat x).exponent hpos := by
  have hx : x.toModel.unpack.isFinite = true := h
  have hbias : (Format.binary64.exponentBias : ℤ) = 1023 := rfl
  set bits := x.toModel.toBits.toBitVec with hbits
  have hread : ofFloat x = if (@unpackExponent .binary64 bits).toNat = 0 then
      ⟨bits.toNat / powTwo 63 == 1, (@unpackMantissa .binary64 bits).toNat, -1074⟩
    else ⟨bits.toNat / powTwo 63 == 1, powTwo 52 + (@unpackMantissa .binary64 bits).toNat,
      -1074 + ((@unpackExponent .binary64 bits).toNat - 1 : Nat)⟩ := by
    rw [toNat_unpackExponent, toNat_unpackMantissa]
    rfl
  unfold Float.Model.unpack UnpackedFloat.unpack at *
  dsimp only at *
  rw [← hbits, ofBitVec_unpackSign] at *
  set places := @unpackMantissa .binary64 bits
  set field := @unpackExponent .binary64 bits
  split at hx
  · split at hx <;> cases hx
  rename_i hmost
  rw [if_neg hmost]
  by_cases hzero : field = 0#11
  · have hfield : field.toNat = 0 := congrArg BitVec.toNat hzero
    rw [if_pos hfield] at hread
    rw [if_pos hzero, hread]
    split
    · rename_i hplaces
      exact .inl ⟨rfl, congrArg BitVec.toNat hplaces⟩
    · rename_i hplaces
      have hpos : 0 < places.toNat :=
        Nat.pos_of_ne_zero fun h => hplaces (BitVec.eq_of_toNat_eq h)
      refine .inr ⟨hpos, ?_⟩
      simp only [UnpackedFloat.finite.injEq, true_and, hfield, hbias]
      exact ⟨rfl, rfl⟩
  · have hfield : field.toNat ≠ 0 := fun h => hzero (BitVec.eq_of_toNat_eq h)
    rw [if_neg hfield] at hread
    rw [if_neg hzero, hread]
    refine .inr ⟨Nat.add_pos_left (powTwo_pos 52) _, ?_⟩
    simp only [UnpackedFloat.finite.injEq, true_and, toNat_leading_append, hbias]
    refine ⟨rfl, ?_⟩
    omega

theorem value_eq_ofFloat {x : Float} (h : x.isFinite = true) : value x =
    signed (if (ofFloat x).negative then .negative else .positive)
      ((ofFloat x).mantissa * 2 ^ (ofFloat x).exponent) := by
  obtain ⟨hu, hzero⟩ | ⟨hpos, hu⟩ := unpack_eq_ofFloat h
  · rw [value_of_zero hu, hzero, Nat.cast_zero, zero_mul]
    split <;> simp [signed]
  · exact value_of_finite hu

theorem div_denominator (d : Double) :
    (d.numerator : ℚ) / d.denominator = d.mantissa * 2 ^ d.exponent := by
  have hsplit : (2 : ℚ) ^ d.exponent.toNat / 2 ^ (-d.exponent).toNat = 2 ^ d.exponent := by
    rw [← zpow_natCast, ← zpow_natCast, ← zpow_sub₀ two_ne_zero, Int.toNat_sub_toNat_neg]
  rw [← hsplit, ← mul_div_assoc, numerator, denominator]
  simp [powTwo]

-- ---------------------------------------------------------------------------
-- Whole units
-- ---------------------------------------------------------------------------

theorem roundHalfUp_eq_floor (num : Nat) {den : Nat} (h : 0 < den) :
    roundHalfUp num den = ⌊(num : ℚ) / den + 1 / 2⌋₊ := by
  have hden : (den : ℚ) ≠ 0 := by exact_mod_cast h.ne'
  rw [roundHalfUp, ← Nat.floor_div_eq_div (K := ℚ)]
  congr 1
  push_cast
  field_simp

/-- A double that is not negative is rounded to the whole number nearest to its value, a half going
up. -/
theorem wholeUnits_eq_floor {x : Float} (hf : x.isFinite = true) (h : 0 ≤ x) :
    wholeUnits x = ⌊value x + 1 / 2⌋₊ := by
  have hv := value_nonneg hf h
  have hpos : (0 : ℚ) ≤ (ofFloat x).numerator / (ofFloat x).denominator := by positivity
  rw [value_eq_ofFloat hf, ← div_denominator] at *
  rw [wholeUnits, hf, Bool.true_and]
  cases hn : (ofFloat x).negative with
  | false => exact roundHalfUp_eq_floor _ (denominator_pos _)
  | true =>
    -- Zero is the only one with a sign.
    rw [hn] at hv
    have hzero : ((ofFloat x).numerator : ℚ) / (ofFloat x).denominator = 0 :=
      le_antisymm (neg_nonneg.mp hv) hpos
    rw [hzero]
    norm_num [signed]

end FairProgram.Double
