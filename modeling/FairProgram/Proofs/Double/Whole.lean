import FairProgram.Proofs.Double.Arithmetic
import Mathlib

/-!
# Whole numbers as doubles

Whole numbers, also those written with a power of ten, are read as the nearest doubles.
-/

namespace FairProgram.Double

open Float.Model Float.Model.UnpackedFloat

variable {x : Float} {q : ℚ}

theorem toFloat_rounds (n : UInt64) : Rounds n.toFloat n.toNat := by
  have h := rounds_normalize (show n.toFloat.toModel = Float.Model.pack
    (UnpackedFloat.normalize .binary64 (n.toNat : ℤ) 0 .positive) from rfl)
  simpa using h

/-- Whether a double is a whole number below `2 ^ 105`, by its places. -/
def isWhole (u : UnpackedFloat) (n : Nat) : Bool :=
  match u with
  | .finite .positive mantissa exponent _ =>
    0 ≤ exponent + 52 && mantissa * 2 ^ (exponent + 52).toNat == n * 2 ^ 52
  | _ => false

theorem value_of_isWhole {n : Nat} (h : isWhole x.toModel.unpack n = true) :
    x.isFinite = true ∧ value x = n := by
  unfold isWhole at h
  split at h
  · rename_i mantissa exponent hpos hu
    rw [Bool.and_eq_true, decide_eq_true_iff, beq_iff_eq] at h
    obtain ⟨hle, heq⟩ := h
    refine ⟨isFinite_of_unpack (by rw [hu]; rfl), ?_⟩
    have hsplit : (2 : ℚ) ^ exponent * 2 ^ 52 = 2 ^ (exponent + 52).toNat := by
      rw [← zpow_natCast, ← zpow_natCast, ← zpow_add₀ two_ne_zero, Int.toNat_of_nonneg hle]
      rfl
    have heq : (mantissa : ℚ) * 2 ^ (exponent + 52).toNat = n * 2 ^ 52 := by exact_mod_cast heq
    rw [value_of_finite hu, signed]
    have h52 : (2 : ℚ) ^ 52 ≠ 0 := by positivity
    apply mul_right_cancel₀ h52
    rw [mul_assoc, hsplit, heq]
  · cases h

/-- The powers of ten that are doubles are tabulated. -/
theorem value_powerOfTen {e : Nat} (he : e < 23) :
    Float.exactlyRepresentablePowersOfTen[e].isFinite = true ∧
      value Float.exactlyRepresentablePowersOfTen[e] = 10 ^ e := by
  have htable : ∀ e : Fin 23,
      isWhole Float.exactlyRepresentablePowersOfTen[e].toModel.unpack (10 ^ e.val) = true := by
    decide +kernel
  obtain ⟨hfinite, hvalue⟩ := value_of_isWhole (htable ⟨e, he⟩)
  exact ⟨hfinite, hvalue.trans (by push_cast; rfl)⟩

theorem nearest_two_pow {e : Nat} : nearest (2 ^ e) = 2 ^ e := by
  have h := nearest_mul_zpow (m := 1) (e := e) (by norm_num) (by omega)
  simpa using h

theorem nearest_natCast {n : Nat} (h : n < 2 ^ 53) : nearest n = n := by
  have h := nearest_mul_zpow (m := n) (e := 0) (by simpa using h) (by norm_num)
  simpa using h

theorem value_toUInt64 {n : Nat} (h : n < 2 ^ 53) :
    n.toUInt64.toFloat.isFinite = true ∧ value n.toUInt64.toFloat = n := by
  have hn : Rounds n.toUInt64.toFloat n := by
    have := toFloat_rounds n.toUInt64
    rwa [UInt64.toNat_ofNat_of_lt' (h.trans (by norm_num))] at this
  have hlt : |nearest (n : ℚ)| < 2 ^ (1024 : ℤ) := by
    rw [nearest_natCast h, Nat.abs_cast]
    calc (n : ℚ) < 2 ^ (53 : ℤ) := by exact_mod_cast h
      _ ≤ 2 ^ (1024 : ℤ) := zpow_le_zpow_right₀ one_le_two (by norm_num)
  obtain ⟨hfinite, hvalue⟩ := hn.of_lt hlt
  exact ⟨hfinite, hvalue.trans (nearest_natCast h)⟩

theorem rounds_of_large (h : x.toModel.unpack = .infinity .positive) (hq : 2 ^ 1024 ≤ q) :
    Rounds x q := by
  have hnearest := nearest_mono hq
  rw [nearest_two_pow] at hnearest
  have hpos : 0 ≤ q := (show (0 : ℚ) ≤ 2 ^ 1024 by positivity).trans hq
  rw [Rounds, if_neg, if_neg (not_lt.mpr hpos)]
  · exact h
  · exact not_lt.mpr (hnearest.trans (le_abs_self _))

/-- A decimal number without fraction is read as the nearest double. -/
theorem ofScientific_rounds (n e : Nat) :
    Rounds (Float.ofScientific n false e) (n * 10 ^ e) := by
  unfold Float.ofScientific
  split
  · rename_i h
    obtain ⟨hfinite, hvalue⟩ := value_powerOfTen (e := e) (by omega)
    obtain ⟨hfinite', hvalue'⟩ := value_toUInt64 h.1
    have := mul_rounds hfinite' hfinite
    rwa [hvalue, hvalue'] at this
  · show Rounds ⟨Float.Model.pack (UnpackedFloat.ofScientific .binary64 n (Int.ofNat e))⟩ _
    unfold UnpackedFloat.ofScientific
    split
    · rename_i hzero
      rw [hzero, Nat.cast_zero, zero_mul]
      exact rounds_of_zero (unpack_pack_zero .positive)
    rename_i hne
    have hpos : 0 < n := Nat.pos_of_ne_zero hne
    split
    · rename_i hlarge
      have he : 1024 ≤ e := by
        simp at hlarge
        omega
      have hn : (1 : ℚ) ≤ n := by exact_mod_cast hpos
      have hle : (2 : ℚ) ^ 1024 ≤ n * 10 ^ e := by
        calc (2 : ℚ) ^ 1024 ≤ 10 ^ 1024 := pow_le_pow_left₀ zero_le_two (by norm_num) _
          _ ≤ 10 ^ e := pow_le_pow_right₀ (by norm_num) he
          _ ≤ n * 10 ^ e := le_mul_of_one_le_left (by positivity) hn
      exact rounds_of_large (unpack_pack_infinity .positive) hle
    · rw [if_neg (by simp; omega), if_pos (show (0 : ℤ) ≤ Int.ofNat e from Int.natCast_nonneg e)]
      set mantissa := n <<< Format.binary64.mantissaBits * 10 ^ (Int.ofNat e).toNat with hm
      have hmantissa : mantissa = n * 10 ^ e * 2 ^ 53 := by
        rw [hm, Nat.shiftLeft_eq, mul_right_comm]
        rfl
      have hmpos : 0 < mantissa := hmantissa ▸ by positivity
      have hlog : 53 ≤ mantissa.log2 := by
        rw [Nat.le_log2 hmpos.ne', hmantissa]
        exact Nat.le_mul_of_pos_left _ (by positivity)
      have hplace : (-53 + 0 : ℤ) ≤
          Format.binary64.targetExponent (totalExponent mantissa (-53 + 0)) := by
        rw [targetExponent_eq]
        omega
      have hnear : IsNearest (roundWithAccuracy .binary64 .positive mantissa (-53 + 0) .exact)
          .positive (mantissa * 2 ^ (-53 + 0 : ℤ)) := roundWithAccuracy_exact hmpos hplace
      have hvalue : (mantissa : ℚ) * 2 ^ (-53 + 0 : ℤ) = n * 10 ^ e := by
        rw [hmantissa]
        push_cast
        rw [mul_assoc]
        norm_num
      rw [hvalue] at hnear
      exact hnear.rounds (by positivity) rfl

theorem ofNat_rounds (n : Nat) : Rounds (Float.ofNat n) n := by
  have h := ofScientific_rounds n 0
  rwa [pow_zero, mul_one] at h

end FairProgram.Double
