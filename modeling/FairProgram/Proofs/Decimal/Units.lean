import FairProgram.Proofs.Double.Bits
import FairProgram.Proofs.Double.Closest
import FairProgram.Proofs.Double.Finite
import FairProgram.Proofs.Program.Tokens
import Mathlib

/-!
# Literals as whole units

The literal of a finite double is the text of a whole number of units of its last place: of its exact
value in these units, rounded half to even (`literal_eq_signedText`). A double that is at least as
close to the number printed as the one printed has the same literal (`literal_eq_of_closer`).
-/

namespace FairProgram

open Double

theorem roundHalfEven_eq_halfEven (num : Nat) {den : Nat} (h : 0 < den) :
    (roundHalfEven num den : ℤ) = halfEven (num / den) := by
  have hden : (0 : ℚ) < den := by exact_mod_cast h
  have hfloor : ⌊(num : ℚ) / den⌋ = (num / den : Nat) := Rat.floor_natCast_div_natCast num den
  have hless : 2 * (((num % den : Nat) : ℚ) / den) < 1 ↔ 2 * (num % den) < den := by
    rw [← mul_div_assoc, div_lt_one hden]
    norm_cast
  have hmore : 1 < 2 * (((num % den : Nat) : ℚ) / den) ↔ den < 2 * (num % den) := by
    rw [← mul_div_assoc, one_lt_div hden]
    norm_cast
  rw [roundHalfEven, halfEven, hfloor, Int.fract_div_natCast_eq_div_natCast_mod]
  simp only [hless, hmore]
  split_ifs <;> push_cast <;> rfl

namespace Decimal

/-- The value of a finite double in units of the last of some places, rounded half to even. -/
def units (x : Float) (places : Nat) : ℤ :=
  halfEven (value x * 10 ^ places)

/-- The text of a number of units of the last place. -/
def signedText (units : ℤ) (places : Nat) : String :=
  (if units < 0 then "-" else "") ++ magnitude units.natAbs places

variable {x y : Float} {places : Nat}

theorem units_eq_signed (hx : x.isFinite = true) (places : Nat) :
    units x places =
      if (ofFloat x).negative then -(fixedUnits (ofFloat x) places : ℤ)
      else fixedUnits (ofFloat x) places := by
  have hfixed : (fixedUnits (ofFloat x) places : ℤ) =
      halfEven ((ofFloat x).mantissa * 2 ^ (ofFloat x).exponent * 10 ^ places) := by
    have hten : ((Whole.powTen places : Nat) : ℚ) = 10 ^ places := Nat.cast_pow 10 places
    rw [fixedUnits, roundHalfEven_eq_halfEven _ (denominator_pos _), ← div_denominator,
      Nat.cast_mul, hten, div_mul_eq_mul_div]
  rw [units, value_eq_ofFloat hx, hfixed]
  cases (ofFloat x).negative with
  | false => rfl
  | true =>
    show halfEven (-(_ : ℚ) * _) = -halfEven _
    rw [neg_mul, halfEven_neg]

theorem literal_eq_signedText (hx : x.isFinite = true) (places : Nat) :
    literal x places = signedText (units x places) places := by
  rw [literal_of_isFinite hx, signedText, units_eq_signed hx]
  cases (ofFloat x).negative with
  | false => simp [not_lt.mpr (Int.natCast_nonneg _)]
  | true => simp [Nat.pos_iff_ne_zero]

theorem fixedValue_eq (hx : x.isFinite = true) (places : Nat) :
    fixedValue x places = units x places / 10 ^ places := by
  rw [fixedValue, units_eq_signed hx]
  cases (ofFloat x).negative with
  | false => simp
  | true => simp [neg_div]

theorem abs_units_sub (hx : x.isFinite = true) (places : Nat) (q : ℚ) :
    |units x places - q * 10 ^ places| = |fixedValue x places - q| * 10 ^ places := by
  have hunit : (0 : ℚ) < 10 ^ places := by positivity
  rw [fixedValue_eq hx, ← abs_of_pos hunit, ← abs_mul, sub_mul, abs_of_pos hunit,
    div_mul_cancel₀ _ hunit.ne']

/-- The number printed for a double is at most half a unit of the last place away from it. -/
theorem abs_fixedValue_sub_le (hx : x.isFinite = true) (places : Nat) :
    |fixedValue x places - value x| ≤ 1 / 2 / 10 ^ places := by
  rw [le_div_iff₀ (by positivity), ← abs_units_sub hx]
  exact abs_halfEven_sub_le _

/-- The double nearest to the number printed for a finite double is finite as well. -/
theorem abs_nearest_fixedValue_lt (hx : x.isFinite = true) (places : Nat) :
    |Double.nearest (fixedValue x places)| < 2 ^ (1024 : ℤ) := by
  set printed := fixedValue x places
  have hhalf : |printed - value x| ≤ 1 / 2 :=
    (abs_fixedValue_sub_le hx places).trans
      (div_le_self (by norm_num) (one_le_pow₀ (by norm_num)))
  have hcloser : |Double.nearest printed - printed| ≤ |printed - value x| := by
    rw [abs_sub_comm printed]
    exact abs_nearest_sub_le_value printed x
  have hapart := abs_sub_le (Double.nearest printed) printed (value x)
  have hdifference := abs_sub_abs_le_abs_sub (Double.nearest printed) (value x)
  have hplace : (1 : ℚ) < 2 ^ (971 : ℤ) := one_lt_zpow₀ one_lt_two (by norm_num)
  calc |Double.nearest printed| ≤ |value x| + 1 := by linarith
    _ < 2 ^ (1024 : ℤ) - 2 ^ (971 : ℤ) + 2 ^ (971 : ℤ) :=
        add_lt_add_of_le_of_lt (abs_value_le x) hplace
    _ = 2 ^ (1024 : ℤ) := sub_add_cancel _ _

/-- A double at least as close to the number printed as the one it was printed for has the same
literal. -/
theorem literal_eq_of_closer (hx : x.isFinite = true) (hy : y.isFinite = true)
    (h : |value y - fixedValue x places| ≤ |value x - fixedValue x places|) :
    literal y places = literal x places := by
  have hunits : units y places = units x places := by
    have hcloser : |units x places - value y * 10 ^ places| ≤
        |units x places - value x * 10 ^ places| := by
      rw [abs_units_sub hx, abs_units_sub hx, abs_sub_comm, abs_sub_comm _ (value x)]
      exact mul_le_mul_of_nonneg_right h (by positivity)
    exact halfEven_eq_of_closer hcloser
  rw [literal_eq_signedText hy, literal_eq_signedText hx, hunits]

end Decimal

end FairProgram
