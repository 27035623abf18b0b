import FairProgram.Proofs.Double.Nearest
import Mathlib

/-!
# Rounding in the model of doubles

The model of doubles shifts a mantissa to the exponent where a double has its last place, and keeps
in two bits what it must know of the places shifted out. What comes out is the nearest double
(`roundWithAccuracy_isNearest`), before an exponent that is too large becomes infinity in memory
(`unpack_pack_finite`, `pack_overflow`).
-/

namespace FairProgram.Double

open Float.Model Float.Model.UnpackedFloat

-- ---------------------------------------------------------------------------
-- Mantissas with what was shifted out of them
-- ---------------------------------------------------------------------------

/-- A mantissa with the bits that tell its fraction apart from none, from a half and from more. -/
def Describes (em : ExtendedMantissa) (q : ℚ) : Prop :=
  ∃ fraction : ℚ, q = em.mantissa + fraction ∧ 0 ≤ fraction ∧ fraction < 1 ∧
    (em.roundBit = true ↔ 1 / 2 ≤ fraction) ∧
    (em.stickyBit = true ↔ fraction ≠ 0 ∧ fraction ≠ 1 / 2)

section
variable {em : ExtendedMantissa} {q : ℚ}

theorem Describes.shiftRightOne (h : Describes em q) : Describes em.shiftRightOne (q / 2) := by
  obtain ⟨fraction, rfl, hnonneg, hlt, hround, hsticky⟩ := h
  have hrest : em.roundBit = true ∨ em.stickyBit = true ↔ fraction ≠ 0 := by
    rw [hround, hsticky]
    grind
  have hsplit : (em.mantissa : ℚ) = 2 * (em.mantissa / 2 : ℕ) + (em.mantissa % 2 : ℕ) := by
    exact_mod_cast (Nat.div_add_mod em.mantissa 2).symm
  refine ⟨((em.mantissa % 2 : ℕ) + fraction) / 2, ?_, ?_⟩
  · simp only [ExtendedMantissa.shiftRightOne]
    linarith
  · simp only [ExtendedMantissa.shiftRightOne, bne_iff_ne, Bool.or_eq_true, hrest]
    obtain hbit | hbit := Nat.mod_two_eq_zero_or_one em.mantissa <;> rw [hbit]
    · grind
    · grind

theorem Describes.shiftRight (h : Describes em q) (n : Nat) :
    Describes (em >>> n) (q / 2 ^ n) := by
  induction n with
  | zero =>
    rw [pow_zero, div_one]
    exact h
  | succ n ih =>
    rw [pow_succ, ← div_div]
    exact ih.shiftRightOne

theorem Describes.roundedMantissa_eq (h : Describes em q) :
    (em.roundedMantissa : ℤ) = halfEven q := by
  obtain ⟨fraction, rfl, hnonneg, hlt, hround, hsticky⟩ := h
  have hfloor : ⌊(em.mantissa : ℚ) + fraction⌋ = em.mantissa := by
    rw [Int.floor_eq_iff]
    push_cast
    constructor <;> linarith
  have hfract : Int.fract ((em.mantissa : ℚ) + fraction) = fraction := by
    rw [Int.fract, hfloor]
    push_cast
    ring
  rw [halfEven, hfloor, hfract]
  obtain ⟨mantissa, round, sticky⟩ := em
  cases round <;> cases sticky <;>
    simp only [ExtendedMantissa.roundedMantissa, ExtendedMantissa.accuracy,
      Accuracy.roundToNearestEven] <;>
    grind

theorem describes_exact (mantissa : Nat) :
    Describes (.ofMantissaAndAccuracy mantissa .exact) mantissa := by
  refine ⟨0, ?_⟩
  simp [ExtendedMantissa.ofMantissaAndAccuracy]

theorem describes_accuracyOfFraction (mantissa : Nat) {num den : Nat} (h : num < den) :
    Describes (.ofMantissaAndAccuracy mantissa (accuracyOfFraction num den))
      (mantissa + num / den) := by
  have hden : (0 : ℚ) < den := by exact_mod_cast (Nat.zero_le num).trans_lt h
  unfold accuracyOfFraction
  split
  · rename_i hzero
    simpa [hzero] using describes_exact mantissa
  · rename_i hzero
    have hhalf : (num : ℚ) / den < 1 / 2 ↔ 2 * num < den := by
      rw [div_lt_div_iff₀ hden two_pos, mul_comm (num : ℚ)]
      norm_cast
      simp
    have hhalf' : (num : ℚ) / den = 1 / 2 ↔ 2 * num = den := by
      rw [div_eq_div_iff hden.ne' two_ne_zero, mul_comm (num : ℚ)]
      norm_cast
      simp
    have hne : (num : ℚ) / den ≠ 0 := div_ne_zero (by exact_mod_cast hzero) hden.ne'
    refine ⟨num / den, ?_, by positivity, (div_lt_one hden).mpr (by exact_mod_cast h), ?_⟩
    · cases compare (2 * num) den <;> rfl
    · obtain hc | hc | hc := lt_trichotomy (2 * num) den
      · rw [compare_lt_iff_lt.mpr hc]
        simp [ExtendedMantissa.ofMantissaAndAccuracy]
        grind
      · rw [compare_eq_iff_eq.mpr hc]
        simp [ExtendedMantissa.ofMantissaAndAccuracy]
        grind
      · rw [compare_gt_iff_gt.mpr hc]
        simp [ExtendedMantissa.ofMantissaAndAccuracy]
        grind

end

-- ---------------------------------------------------------------------------
-- Rounding in the model of doubles
-- ---------------------------------------------------------------------------

/-- A mantissa at the exponent that it has in a double: the first of 53 places is used, or the
exponent is the least. -/
structure Canonical (mantissa : Nat) (exponent : ℤ) : Prop where
  lt : mantissa < 2 ^ 53
  least : -1074 ≤ exponent
  leading : -1074 < exponent → 2 ^ 52 ≤ mantissa

theorem targetExponent_eq (mantissa : Nat) (exponent : ℤ) :
    Format.binary64.targetExponent (totalExponent mantissa exponent) =
      max (mantissa.log2 + exponent - 52) (-1074) := by
  simp only [Format.targetExponent, totalExponent, Format.mantissaBits, Format.minExponent]
  norm_num
  omega

theorem log2_le {mantissa places : Nat} (h : mantissa < 2 ^ (places + 1)) :
    mantissa.log2 ≤ places := by
  obtain rfl | hne := Nat.eq_zero_or_pos mantissa
  · simp
  · exact Nat.lt_succ_iff.mp ((Nat.log2_lt hne.ne').mpr h)

/-- Numbers between a mantissa and the next one have their last place where the mantissa has. -/
theorem lastPlace_of_mantissa {mantissa : Nat} {q : ℚ} {exponent : ℤ} (hpos : 0 < mantissa)
    (hle : mantissa ≤ q) (hlt : q < mantissa + 1) :
    lastPlace (q * 2 ^ exponent) =
      Format.binary64.targetExponent (totalExponent mantissa exponent) := by
  have hlow : (2 : ℚ) ^ mantissa.log2 ≤ q := by
    refine le_trans ?_ hle
    exact_mod_cast Nat.log2_self_le hpos.ne'
  have hhigh : q < 2 ^ (mantissa.log2 + 1) := by
    have hnext : ((mantissa + 1 : ℕ) : ℚ) ≤ 2 ^ (mantissa.log2 + 1) := by
      exact_mod_cast Nat.lt_log2_self
    push_cast at hnext
    exact hlt.trans_le hnext
  rw [targetExponent_eq]
  apply lastPlace_eq
  · rw [zpow_add₀ two_ne_zero, zpow_natCast]
    exact mul_le_mul_of_nonneg_right hlow (by positivity)
  · rw [add_right_comm, zpow_add₀ two_ne_zero]
    exact mul_lt_mul_of_pos_right (by exact_mod_cast hhigh) (by positivity)

/-- Nothing is left to shift in a mantissa of at most 53 places. -/
theorem shiftToTargetExponent_small {mantissa : Nat} {exponent : ℤ} (hm : mantissa < 2 ^ 53)
    (he : -1074 ≤ exponent) :
    shiftToTargetExponent .binary64 mantissa exponent .exact =
      (⟨mantissa, false, false⟩, exponent) := by
  have hshift : (Format.binary64.targetExponent (totalExponent mantissa exponent) -
      exponent).toNat = 0 := by
    have := log2_le hm
    rw [targetExponent_eq]
    omega
  rw [shiftToTargetExponent, shiftToExponent, hshift, Nat.cast_zero, add_zero]
  rfl

theorem shiftToTargetExponent_carry {exponent : ℤ} (he : -1074 ≤ exponent) :
    shiftToTargetExponent .binary64 (2 ^ 53) exponent .exact =
      (⟨2 ^ 52, false, false⟩, exponent + 1) := by
  have hshift : (Format.binary64.targetExponent (totalExponent (2 ^ 53) exponent) -
      exponent).toNat = 1 := by
    rw [targetExponent_eq, Nat.log2_two_pow]
    omega
  rw [shiftToTargetExponent, shiftToExponent, hshift, Nat.cast_one]
  rfl

/-- Zero, or the places and the exponent of the double nearest to a number. -/
def IsNearest (u : UnpackedFloat) (sign : Sign) (q : ℚ) : Prop :=
  (nearest q = 0 ∧ u = .zero sign) ∨
    ∃ mantissa exponent hpos, u = .finite sign mantissa exponent hpos ∧
      Canonical mantissa exponent ∧ (mantissa : ℚ) * 2 ^ exponent = nearest q

theorem roundWithAccuracy_isNearest {sign : Sign} {mantissa : Nat} {exponent : ℤ}
    {accuracy : Accuracy} {q : ℚ} (hpos : 0 < q)
    (hq : Describes (.ofMantissaAndAccuracy mantissa accuracy) q)
    (hplace : lastPlace (q * 2 ^ exponent) =
      Format.binary64.targetExponent (totalExponent mantissa exponent))
    (hle : exponent ≤ lastPlace (q * 2 ^ exponent)) :
    IsNearest (roundWithAccuracy .binary64 sign mantissa exponent accuracy) sign
      (q * 2 ^ exponent) := by
  set place := lastPlace (q * 2 ^ exponent) with hdef
  obtain ⟨shift, hshift⟩ := Int.le.dest hle
  have hscaled : q * 2 ^ exponent / 2 ^ place = q / 2 ^ shift := by
    rw [← hshift, zpow_add₀ two_ne_zero, zpow_natCast, mul_comm q,
      mul_div_mul_left _ _ (by positivity)]
  have hfirst : shiftToTargetExponent .binary64 mantissa exponent accuracy =
      (ExtendedMantissa.ofMantissaAndAccuracy mantissa accuracy >>> shift, place) := by
    have hamount : (place - exponent).toNat = shift := by omega
    rw [shiftToTargetExponent, ← hplace, shiftToExponent, hamount, hshift]
  have hrounded := (hq.shiftRight shift).roundedMantissa_eq
  rw [← hscaled] at hrounded
  set em := ExtendedMantissa.ofMantissaAndAccuracy mantissa accuracy >>> shift
  have hleast : -1074 ≤ place := neg_1074_le_lastPlace _
  have hnearest : nearest (q * 2 ^ exponent) = em.roundedMantissa * 2 ^ place := by
    rw [nearest, ← hdef, ← hrounded]
    norm_cast
  have hmost : em.roundedMantissa ≤ 2 ^ 53 := by
    have := halfEven_places_le (q * 2 ^ exponent)
    rw [← hdef, ← hrounded] at this
    exact_mod_cast this
  rw [IsNearest, hnearest, roundWithAccuracy, hfirst]
  dsimp only
  obtain hlt | heq := lt_or_eq_of_le hmost
  · rw [shiftToTargetExponent_small hlt hleast]
    dsimp only
    split
    · rename_i hzero
      exact .inl ⟨by rw [hzero]; simp, rfl⟩
    · rename_i hne
      refine .inr ⟨_, _, Nat.pos_of_ne_zero hne, rfl, ⟨hlt, hleast, fun h => ?_⟩, rfl⟩
      have := le_halfEven_places (q := q * 2 ^ exponent) (by positivity) h
      rw [← hdef, ← hrounded] at this
      exact_mod_cast this
  · rw [heq, shiftToTargetExponent_carry hleast]
    refine .inr ⟨2 ^ 52, place + 1, by norm_num, rfl, ⟨by norm_num, by omega, fun _ => le_rfl⟩, ?_⟩
    rw [zpow_add_one₀ two_ne_zero]
    push_cast
    ring

theorem roundWithAccuracy_exact {sign : Sign} {mantissa : Nat} {exponent : ℤ} (hpos : 0 < mantissa)
    (hle : exponent ≤ Format.binary64.targetExponent (totalExponent mantissa exponent)) :
    IsNearest (roundWithAccuracy .binary64 sign mantissa exponent .exact) sign
      (mantissa * 2 ^ exponent) := by
  have hplace : lastPlace (mantissa * 2 ^ exponent) = _ :=
    lastPlace_of_mantissa hpos le_rfl (lt_add_one _)
  exact roundWithAccuracy_isNearest (by exact_mod_cast hpos) (describes_exact mantissa) hplace
    (hplace ▸ hle)

theorem round_isNearest {sign : Sign} {mantissa : Nat} {exponent : ℤ} (hpos : 0 < mantissa) :
    IsNearest (round .binary64 sign mantissa exponent) sign (mantissa * 2 ^ exponent) := by
  set shift := (exponent - Format.binary64.targetExponent (totalExponent mantissa exponent)).toNat
    with hshift
  have hround : round .binary64 sign mantissa exponent =
      roundWithAccuracy .binary64 sign (mantissa * 2 ^ shift) (exponent - shift) .exact := by
    rw [UnpackedFloat.round, decreaseExponent, ← hshift, Nat.shiftLeft_eq]
  have hlog : (mantissa * 2 ^ shift).log2 = mantissa.log2 + shift := by
    rw [Nat.log2_eq_iff (by positivity), add_right_comm, pow_add, pow_add 2 (mantissa.log2 + 1)]
    exact ⟨Nat.mul_le_mul_right _ (Nat.log2_self_le hpos.ne'),
      Nat.mul_lt_mul_of_pos_right Nat.lt_log2_self (by positivity)⟩
  have hle : exponent - shift ≤
      Format.binary64.targetExponent (totalExponent (mantissa * 2 ^ shift) (exponent - shift)) := by
    rw [targetExponent_eq] at hshift
    rw [targetExponent_eq, hlog]
    omega
  have hvalue : (mantissa : ℚ) * 2 ^ exponent =
      (mantissa * 2 ^ shift : ℕ) * 2 ^ (exponent - shift) := by
    rw [Nat.cast_mul, mul_assoc, Nat.cast_pow, Nat.cast_two, ← zpow_natCast,
      ← zpow_add₀ two_ne_zero, add_sub_cancel]
  rw [hround, hvalue]
  exact roundWithAccuracy_exact (by positivity) hle

-- ---------------------------------------------------------------------------
-- Doubles in memory
-- ---------------------------------------------------------------------------

theorem unpack_pack_infinity (sign : Sign) :
    (Float.Model.pack (.infinity sign)).unpack = .infinity sign := by
  cases sign <;> rfl

theorem unpack_pack_zero (sign : Sign) :
    (Float.Model.pack (.zero sign)).unpack = .zero sign := by
  cases sign <;> rfl

theorem ofNat_ne {width value other : Nat} (h : value < 2 ^ width) (h' : other < 2 ^ width)
    (hne : value ≠ other) : BitVec.ofNat width value ≠ BitVec.ofNat width other := by
  intro heq
  have := congrArg BitVec.toNat heq
  rw [BitVec.toNat_ofNat, BitVec.toNat_ofNat, Nat.mod_eq_of_lt h, Nat.mod_eq_of_lt h'] at this
  exact hne this

theorem toNat_leading_append (places : BitVec 52) :
    (1#1 ++ places).toNat = 2 ^ 52 + places.toNat := by
  rw [BitVec.toNat_append, ← Nat.shiftLeft_add_eq_or_of_lt places.isLt]
  rfl

/-- Places and exponent are kept in memory, unless the exponent is too large. -/
theorem unpack_pack_finite {sign : Sign} {mantissa : Nat} {exponent : ℤ} {hpos : 0 < mantissa}
    (h : Canonical mantissa exponent) (hmost : exponent ≤ 971) :
    (Float.Model.pack (.finite sign mantissa exponent hpos)).unpack =
      .finite sign mantissa exponent hpos := by
  obtain ⟨hlt, hleast, hleading⟩ := h
  obtain ⟨biased, rfl⟩ : ∃ biased : Nat, exponent = biased - 1075 :=
    ⟨(exponent + 1075).toNat, by omega⟩
  have hbias : (Format.binary64.exponentBias : ℤ) = 1023 := rfl
  have hexponent : ((biased : ℤ) - 1075 + Format.binary64.exponentBias +
      Format.binary64.mantissaBitsWithoutImplicit).toNat = biased := by
    show ((biased : ℤ) - 1075 + 1023 + 52).toNat = biased
    omega
  have hfits : ¬ 2 ^ Format.binary64.exponentBits ≤ biased + 1 := by
    simp
    omega
  show UnpackedFloat.unpack .binary64 (UnpackedFloat.pack .binary64 _) = _
  simp only [UnpackedFloat.pack, hexponent, if_neg hfits]
  by_cases hle : 2 ^ 52 ≤ mantissa
  · have hlog : mantissa.log2 + 1 = Format.binary64.mantissaBits := by
      rw [(Nat.log2_eq_iff hpos.ne').mpr ⟨hle, hlt⟩]
      rfl
    have hmost : BitVec.ofNat 11 biased ≠ -1#11 := fun heq =>
      ofNat_ne (by omega) (by omega) (by omega) (heq.trans (show _ = BitVec.ofNat 11 2047 from rfl))
    have hleast : BitVec.ofNat 11 biased ≠ 0#11 := ofNat_ne (by omega) (by omega) (by omega)
    simp only [if_pos hlog, UnpackedFloat.unpack, unpackExponent_packComponents,
      unpackMantissa_packComponents, unpackSign_packComponents, Sign.ofBitVec_toBitVec,
      if_neg hmost, if_neg hleast, UnpackedFloat.finite.injEq, true_and, toNat_leading_append,
      BitVec.toNat_ofNat, hbias]
    constructor <;> omega
  · have hlog : mantissa.log2 + 1 ≠ Format.binary64.mantissaBits := by
      have : mantissa.log2 ≤ 51 := log2_le (by omega)
      have : Format.binary64.mantissaBits = 53 := rfl
      omega
    have hzero : BitVec.ofNat 52 mantissa ≠ 0#52 := ofNat_ne (by omega) (by omega) (by omega)
    have hmost : 0#11 ≠ -1#11 := by decide
    simp only [if_neg hlog, UnpackedFloat.unpack, unpackExponent_packComponents,
      unpackMantissa_packComponents, unpackSign_packComponents, Sign.ofBitVec_toBitVec,
      if_neg hmost, if_true, dif_neg hzero, UnpackedFloat.finite.injEq, true_and,
      BitVec.toNat_ofNat, hbias]
    constructor <;> simp <;> omega

theorem pack_overflow {sign : Sign} {mantissa : Nat} {exponent : ℤ} {hpos : 0 < mantissa}
    (hmost : 971 < exponent) :
    Float.Model.pack (.finite sign mantissa exponent hpos) = Float.Model.pack (.infinity sign) := by
  have hover : 2 ^ Format.binary64.exponentBits ≤
      (exponent + Format.binary64.exponentBias +
        Format.binary64.mantissaBitsWithoutImplicit).toNat + 1 := by
    simp [Format.exponentBias]
    omega
  simp only [Float.Model.pack, UnpackedFloat.pack, if_pos hover]

theorem canonical_of_unpack {x : Float.Model} {sign : Sign} {mantissa : Nat} {exponent : ℤ}
    {hpos : 0 < mantissa} (h : x.unpack = .finite sign mantissa exponent hpos) :
    Canonical mantissa exponent ∧ exponent ≤ 971 := by
  have hbias : (Format.binary64.exponentBias : ℤ) = 1023 := rfl
  unfold Float.Model.unpack UnpackedFloat.unpack at h
  dsimp only at h
  set field := @unpackExponent .binary64 x.toBits.toBitVec
  set places := @unpackMantissa .binary64 x.toBits.toBitVec
  have hfield := field.isLt
  have hplaces := places.isLt
  split at h
  · split at h <;> cases h
  rename_i hmost
  have hmost : field.toNat ≠ 2047 := fun heq => hmost (BitVec.eq_of_toNat_eq heq)
  split at h
  · rename_i hzero
    split at h
    · cases h
    · obtain ⟨-, rfl, rfl⟩ := UnpackedFloat.finite.inj h
      rw [hzero, hbias]
      refine ⟨⟨?_, ?_, ?_⟩, ?_⟩ <;> simp at *
      omega
  · rename_i hne
    have hne : field.toNat ≠ 0 := fun heq => hne (BitVec.eq_of_toNat_eq heq)
    obtain ⟨-, rfl, rfl⟩ := UnpackedFloat.finite.inj h
    rw [toNat_leading_append, hbias]
    refine ⟨⟨?_, ?_, ?_⟩, ?_⟩ <;> simp at * <;> omega

end FairProgram.Double
