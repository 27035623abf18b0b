import FairProgram.Decimal.Fixed
import FairProgram.Decimal.Numeral
import FairProgram.Proofs.Double.Order

/-!
# The digits of number literals

A literal of a finite double is a sign, unless it denotes zero, digits, and behind a point as many
digits as it has places. As a number without point the digits are the units of the last place
(`magnitude_digits`).
-/

namespace FairProgram.Decimal

open Whole

-- ---------------------------------------------------------------------------
-- Digits
-- ---------------------------------------------------------------------------

theorem isDigit_of_mem_toDigits {n : Nat} {c : Char} (h : c ∈ Nat.toDigits 10 n) :
    c.isDigit = true :=
  Nat.isDigit_of_mem_toDigits (by decide) (by decide) h

theorem ofDigits_toDigits (n : Nat) : ofDigits (Nat.toDigits 10 n) = n :=
  Nat.ofDigitChars_toDigits (by decide) (by decide)

theorem ofDigits_zeros (count : Nat) (digits : List Char) :
    ofDigits (List.replicate count '0' ++ digits) = ofDigits digits := by
  induction count with
  | zero => rfl
  | succ count ih => exact ih

theorem ofDigits_append (first second : List Char) :
    ofDigits (first ++ second) = ofDigits first * powTen second.length + ofDigits second := by
  induction second using List.reverseRecOn with
  | nil => simp [ofDigits, powTen]
  | append_singleton second c ih =>
    have hc (digits : List Char) :
        ofDigits (digits ++ [c]) = 10 * ofDigits digits + (c.toNat - '0'.toNat) := by
      simp [ofDigits]
    have hpow : powTen (second ++ [c]).length = 10 * powTen second.length := by
      simp [powTen, Nat.pow_succ, Nat.mul_comm]
    rw [← List.append_assoc, hc, hc, ih, hpow]
    ring

theorem length_toDigits_le {n places : Nat} (hp : 0 < places) (h : n < powTen places) :
    (Nat.toDigits 10 n).length ≤ places :=
  (Nat.length_toDigits_le_iff (by decide) hp).mpr h

-- ---------------------------------------------------------------------------
-- Literals
-- ---------------------------------------------------------------------------

/-- The text of a magnitude in units of the last place. -/
def magnitude (units places : Nat) : String :=
  if places = 0 then toString units else unitsText units places

/-- A point and the digits behind it, or nothing without digits. -/
def point (fraction : List Char) : List Char :=
  if fraction.isEmpty then [] else '.' :: fraction

/-- Digits in front of a point and behind it, which without the point are the units. -/
theorem magnitude_digits (units places : Nat) : ∃ whole fraction,
    (magnitude units places).toList = whole ++ point fraction ∧
    whole ≠ [] ∧ (∀ c ∈ whole ++ fraction, c.isDigit = true) ∧ fraction.length = places ∧
    ofDigits (whole ++ fraction) = units := by
  by_cases hp : places = 0
  · refine ⟨Nat.toDigits 10 units, [], ?_, Nat.toDigits_ne_nil, ?_, hp.symm, ?_⟩
    · simp [magnitude, hp, point, Nat.toString_eq_repr, Nat.toList_repr]
    · intro c hc
      rw [List.append_nil] at hc
      exact isDigit_of_mem_toDigits hc
    · rw [List.append_nil, ofDigits_toDigits]
  · have hlen := length_toDigits_le (Nat.pos_of_ne_zero hp)
      (Nat.mod_lt units (powTen_pos places))
    have hfraction : (List.leftpad places '0' (Nat.toDigits 10 (units % powTen places))).length =
        places := by
      simp [List.leftpad, Nat.sub_add_cancel hlen]
    refine ⟨Nat.toDigits 10 (units / powTen places), _, ?_, Nat.toDigits_ne_nil, ?_, hfraction, ?_⟩
    · simp [magnitude, hp, point, unitsText, List.leftpad]
    · intro c hc
      rw [List.leftpad, List.mem_append, List.mem_append] at hc
      rcases hc with hc | hc | hc
      · exact isDigit_of_mem_toDigits hc
      · rw [List.eq_of_mem_replicate hc]
        rfl
      · exact isDigit_of_mem_toDigits hc
    · rw [ofDigits_append, hfraction, List.leftpad, ofDigits_zeros, ofDigits_toDigits,
        ofDigits_toDigits]
      exact Nat.div_add_mod' units (powTen places)

theorem literal_of_isFinite {x : Float} (h : x.isFinite = true) (places : Nat) :
    literal x places =
      (if (Double.ofFloat x).negative && fixedUnits (Double.ofFloat x) places != 0 then "-" else "") ++
        magnitude (fixedUnits (Double.ofFloat x) places) places := by
  unfold literal
  simp only [Double.isNaN_of_isFinite h, Double.isInf_of_isFinite h, Bool.false_eq_true, if_false]
  split
  · rfl
  · rw [String.empty_append]
    rfl

theorem mem_point {c : Char} {fraction : List Char} (h : c ∈ point fraction) :
    c = '.' ∨ c ∈ fraction := by
  unfold point at h
  split at h
  · simp at h
  · simpa using h

theorem mem_unitsText {units places : Nat} {c : Char} (h : c ∈ (unitsText units places).toList) :
    c.isDigit = true ∨ c = '.' := by
  simp only [unitsText, List.leftpad, String.toList_ofList, List.mem_append, List.mem_cons] at h
  rcases h with h | rfl | h | h
  · exact .inl (isDigit_of_mem_toDigits h)
  · exact .inr rfl
  · rw [List.eq_of_mem_replicate h]
    exact .inl rfl
  · exact .inl (isDigit_of_mem_toDigits h)

theorem mem_magnitude {units places : Nat} {c : Char} (h : c ∈ (magnitude units places).toList) :
    c.isDigit = true ∨ c = '.' := by
  obtain ⟨whole, fraction, hdigits, -, hall, -⟩ := magnitude_digits units places
  rw [hdigits, List.mem_append] at h
  obtain h | h := h
  · exact .inl (hall c (List.mem_append_left _ h))
  · exact (mem_point h).symm.imp_left fun h => hall c (List.mem_append_right _ h)

/-- The characters of literals of finite doubles. -/
theorem mem_literal_of_isFinite {x : Float} (hx : x.isFinite = true) {places : Nat} {c : Char}
    (h : c ∈ (literal x places).toList) : c.isDigit = true ∨ c = '-' ∨ c = '.' := by
  rw [literal_of_isFinite hx, String.toList_append, List.mem_append] at h
  obtain h | h := h
  · split at h
    · exact .inr (.inl (by simpa using h))
    · cases h
  · exact (mem_magnitude h).imp_right .inr

/-- The literals of numbers that are not finite are words. -/
theorem literal_of_not_isFinite {x : Float} (h : x.isFinite = false) (places : Nat) :
    literal x places ∈ ["NaN", "-inf", "inf"] := by
  have hcases : x.isNaN = true ∨ x.isInf = true := by
    have h : x.toModel.unpack.isFinite = false := h
    show x.toModel.unpack.isNaN = true ∨ x.toModel.unpack.isInf = true
    cases hu : x.toModel.unpack <;> simp_all [Float.Model.UnpackedFloat.isFinite,
      Float.Model.UnpackedFloat.isNaN, Float.Model.UnpackedFloat.isInf]
  unfold literal
  split
  · simp
  · rename_i hnan
    rw [if_pos (hcases.resolve_left hnan)]
    split <;> simp

/-- The characters of literals. -/
theorem mem_literal {x : Float} {places : Nat} {c : Char} (h : c ∈ (literal x places).toList) :
    c.isAlphanum = true ∨ c = '-' ∨ c = '.' := by
  cases hx : x.isFinite with
  | true =>
    refine (mem_literal_of_isFinite hx h).imp_left fun hdigit => ?_
    simp [Char.isAlphanum, hdigit]
  | false =>
    have hwords : ∀ text ∈ ["NaN", "-inf", "inf"], ∀ c ∈ text.toList,
        c.isAlphanum = true ∨ c = '-' ∨ c = '.' := by
      simp
    exact hwords _ (literal_of_not_isFinite hx places) c h

end FairProgram.Decimal
