import FairProgram.Proofs.Decimal.Units
import FairProgram.Proofs.Double.Fraction
import Mathlib

/-!
# Reading numerals

Digits and a power of ten are read as the nearest double, also where the power is so large or so small
that it is not computed (`nearest_rounds`). The literal of a finite double, read again, is printed as
it was: what is read is at least as close to the number printed as the double first printed
(`exists_read?_literal`).
-/

namespace FairProgram.Decimal

open Double

-- ---------------------------------------------------------------------------
-- Digits and powers of ten
-- ---------------------------------------------------------------------------

section
variable {digits : Nat} {exponent : ℤ}

theorem mul_zpow_lt (digits : Nat) (exponent : ℤ) :
    (digits : ℚ) * 10 ^ exponent < 10 ^ (exponent + (Nat.toDigits 10 digits).length) := by
  have hlt : digits < 10 ^ (Nat.toDigits 10 digits).length :=
    (Nat.length_toDigits_le_iff (by norm_num) Nat.length_toDigits_pos).mp le_rfl
  rw [zpow_add₀ (by norm_num), zpow_natCast, mul_comm]
  exact mul_lt_mul_of_pos_left (by exact_mod_cast hlt) (by positivity)

theorem zpow_le_mul (hpos : 0 < digits) (exponent : ℤ) :
    (10 : ℚ) ^ (exponent + (Nat.toDigits 10 digits).length - 1) ≤ digits * 10 ^ exponent := by
  obtain ⟨least, hlength⟩ : ∃ least, (Nat.toDigits 10 digits).length = least + 1 :=
    Nat.exists_eq_succ_of_ne_zero Nat.length_toDigits_pos.ne'
  have hle : 10 ^ least ≤ digits := by
    obtain rfl | hleast := Nat.eq_zero_or_pos least
    · exact hpos
    · refine not_lt.mp fun hlt => ?_
      have := (Nat.length_toDigits_le_iff (by norm_num) hleast).mpr hlt
      omega
  rw [hlength, show exponent + (least + 1 : Nat) - 1 = exponent + least by push_cast; ring,
    zpow_add₀ (by norm_num), zpow_natCast, mul_comm]
  exact mul_le_mul_of_nonneg_right (by exact_mod_cast hle) (by positivity)

theorem two_pow_le_ten_pow {a b : Nat} (h : a ≤ 3 * b) : (2 : ℚ) ^ a ≤ 10 ^ b :=
  calc (2 : ℚ) ^ a ≤ 2 ^ (3 * b) := pow_le_pow_right₀ one_le_two h
    _ = 8 ^ b := by rw [pow_mul]; norm_num
    _ ≤ 10 ^ b := pow_le_pow_left₀ (by norm_num) (by norm_num) b

/-- Digits and a power of ten are read as the nearest double. -/
theorem nearest_rounds (digits : Nat) (exponent : ℤ) :
    Rounds (nearest digits exponent) (digits * 10 ^ exponent) := by
  rw [nearest]
  split
  · rename_i hzero
    rw [hzero, Nat.cast_zero, zero_mul]
    exact rounds_zero
  rename_i hne
  dsimp only
  split
  · rename_i hlarge
    refine rounds_of_large rfl ?_
    calc (2 : ℚ) ^ 1024 ≤ 10 ^ 400 := two_pow_le_ten_pow (by norm_num)
      _ = 10 ^ (400 : ℤ) := (zpow_ofNat 10 400).symm
      _ ≤ 10 ^ (exponent + (Nat.toDigits 10 digits).length - 1) :=
          zpow_le_zpow_right₀ (by norm_num) (by omega)
      _ ≤ digits * 10 ^ exponent := zpow_le_mul (Nat.pos_of_ne_zero hne) exponent
  split
  · rename_i hsmall
    have hzero : (0 : Float).toModel.unpack = .zero .positive := rfl
    refine rounds_of_small hzero ?_
    rw [abs_of_nonneg (by positivity)]
    calc (digits : ℚ) * 10 ^ exponent < 10 ^ (exponent + (Nat.toDigits 10 digits).length) :=
          mul_zpow_lt digits exponent
      _ ≤ 10 ^ (-400 : ℤ) := zpow_le_zpow_right₀ (by norm_num) (by omega)
      _ ≤ 2 ^ (-1075 : ℤ) := by
          rw [zpow_neg, zpow_neg, zpow_ofNat, zpow_ofNat]
          exact inv_anti₀ (by positivity) (two_pow_le_ten_pow (by norm_num))
  · by_cases hneg : exponent < 0
    · obtain ⟨e, rfl⟩ : ∃ e : Nat, exponent = -e := ⟨exponent.natAbs, by omega⟩
      rw [decide_eq_true hneg, Int.natAbs_neg, Int.natAbs_natCast, zpow_neg, zpow_natCast,
        ← div_eq_mul_inv]
      exact ofScientific_fraction_rounds digits e
    · obtain ⟨e, rfl⟩ := Int.eq_ofNat_of_zero_le (not_lt.mp hneg)
      rw [decide_eq_false hneg, Int.natAbs_natCast, zpow_natCast]
      exact ofScientific_rounds digits e

end

-- ---------------------------------------------------------------------------
-- Numerals
-- ---------------------------------------------------------------------------

section
variable {whole fraction : List Char}

theorem readMagnitude?_digits (hne : whole ≠ [])
    (hall : ∀ c ∈ whole ++ fraction, c.isDigit = true) :
    readMagnitude? (whole ++ point fraction) =
      some (nearest (ofDigits (whole ++ fraction)) (-fraction.length)) := by
  obtain ⟨hwhole, hfraction⟩ := List.forall_mem_append.mp hall
  have hpoint : ('.' : Char).isDigit = false := rfl
  cases fraction with
  | nil =>
    simp [readMagnitude?, point, List.takeWhile_eq_self_iff.mpr hwhole,
      List.dropWhile_eq_nil_iff.mpr hwhole, hne, readExponent?]
  | cons c rest =>
    simp [readMagnitude?, point, List.takeWhile_append_of_pos hwhole,
      List.dropWhile_append_of_pos hwhole, hpoint, hne, List.takeWhile_eq_self_iff.mpr hfraction,
      List.dropWhile_eq_nil_iff.mpr hfraction, readExponent?]

theorem toLower_of_isDigit {c : Char} (h : c.isDigit = true) : c.toLower = c := by
  refine Char.toLower_eq_of_not_isUpper fun hupper => ?_
  simp only [Char.isDigit, Char.isUpper, Bool.and_eq_true, decide_eq_true_eq] at h hupper
  exact absurd (UInt32.le_trans hupper.1 h.2) (by decide)

/-- What begins with a digit has no sign and is not a word. -/
theorem read?_of_isDigit {c : Char} (hc : c.isDigit = true) (rest : List Char) :
    read? (c :: rest) = readMagnitude? (c :: rest) ∧
      read? ('-' :: c :: rest) = (readMagnitude? (c :: rest)).map (-·) := by
  have hsign : splitSign (c :: rest) = (false, c :: rest) := by
    unfold splitSign
    split
    · simp_all
    · simp_all
    · rfl
  have hword {d : Char} {more : List Char} (hd : d.isDigit = false) :
      String.ofList ((c :: rest).map Char.toLower) ≠ String.ofList (d :: more) := by
    intro heq
    have := (List.cons.inj (String.ofList_injective heq)).1
    rw [toLower_of_isDigit hc] at this
    rw [this, hd] at hc
    cases hc
  have hinf : String.ofList ((c :: rest).map Char.toLower) ≠ "inf" := hword rfl
  have hinfinity : String.ofList ((c :: rest).map Char.toLower) ≠ "infinity" := hword rfl
  have hnan : String.ofList ((c :: rest).map Char.toLower) ≠ "nan" := hword rfl
  constructor
  · simp only [read?, hsign, hinf, hinfinity, hnan, or_self, if_false, Bool.false_eq_true,
      Option.map_id']
  · simp only [read?, splitSign, hinf, hinfinity, hnan, or_self, if_false, if_true]

theorem exists_read?_magnitude (units places : Nat) :
    ∃ x, read? (magnitude units places).toList = some x ∧
      read? ('-' :: (magnitude units places).toList) = some (-x) ∧
      Rounds x (units / 10 ^ places) := by
  obtain ⟨whole, fraction, htext, hne, hall, hlength, hdigits⟩ := magnitude_digits units places
  obtain ⟨c, rest, rfl⟩ := List.exists_cons_of_ne_nil hne
  have hread := readMagnitude?_digits hne hall
  rw [hdigits, hlength] at hread
  obtain ⟨hplus, hminus⟩ := read?_of_isDigit (hall c List.mem_cons_self) (rest ++ point fraction)
  rw [← List.cons_append, hread] at hplus hminus
  have hrounds := nearest_rounds units (-places)
  rw [zpow_neg, zpow_natCast, ← div_eq_mul_inv] at hrounds
  rw [htext]
  exact ⟨_, hplus, hminus, hrounds⟩

/-- The text of units of a decimal place is read as the double nearest to what it denotes. -/
theorem exists_read?_signedText (units : ℤ) (places : Nat) :
    ∃ x, read? (signedText units places).toList = some x ∧ Rounds x (units / 10 ^ places) := by
  obtain ⟨x, hplus, hminus, hrounds⟩ := exists_read?_magnitude units.natAbs places
  rw [Nat.cast_natAbs, Int.cast_abs] at hrounds
  rw [signedText]
  obtain hneg | hnonneg := lt_or_ge units 0
  · have hcast : (units : ℚ) < 0 := by exact_mod_cast hneg
    refine ⟨-x, by simpa [hneg] using hminus, ?_⟩
    rw [← neg_neg (units : ℚ), ← abs_of_neg hcast, neg_div]
    exact hrounds.neg
  · have hcast : (0 : ℚ) ≤ units := by exact_mod_cast hnonneg
    rw [abs_of_nonneg hcast] at hrounds
    exact ⟨x, by simpa [hnonneg.not_gt] using hplus, hrounds⟩

/-- The literal of a finite double is read as a finite double with the same literal. -/
theorem exists_read?_literal {x : Float} (hx : x.isFinite = true) (places : Nat) :
    ∃ y, read? (literal x places).toList = some y ∧ y.isFinite = true ∧
      Rounds y (fixedValue x places) ∧ literal y places = literal x places := by
  obtain ⟨y, hread, hrounds⟩ := exists_read?_signedText (units x places) places
  rw [← literal_eq_signedText hx] at hread
  rw [← fixedValue_eq hx] at hrounds
  obtain ⟨hy, hv⟩ := hrounds.of_lt (abs_nearest_fixedValue_lt hx places)
  refine ⟨y, hread, hy, hrounds, literal_eq_of_closer hx hy ?_⟩
  rw [hv]
  exact abs_nearest_sub_le_value _ x

end

end FairProgram.Decimal
