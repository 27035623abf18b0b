import FairProgram.Json.Reader
import FairProgram.Proofs.Classifier.Unrolling
import FairProgram.Proofs.Double.Nonneg
import Mathlib

/-!
# Numbers of JSON text

Every number that JSON text denotes is a number: a word as a double is finite, and so is every power
of ten that it is multiplied with or divided by. Reading hands that to all numbers of a value, at
whatever depth they are (`numeric_takeValue`).
-/

namespace FairProgram

open Double

namespace Json

-- ---------------------------------------------------------------------------
-- Numerals
-- ---------------------------------------------------------------------------

theorem gatherDigits_le {limit n : Nat} (h : n ≤ limit) (digits : List UInt8) :
    (gatherDigits limit n digits).1 ≤ limit := by
  induction digits generalizing n with
  | nil => exact h
  | cons b rest ih =>
    unfold gatherDigits
    dsimp only
    split
    · exact h
    · rename_i hle
      exact ih (not_lt.mp hle)

theorem powerOfTen_rounds (exponent : Nat) : Rounds (powerOfTen exponent) (10 ^ exponent) := by
  have h := ofScientific_rounds 1 exponent
  rwa [Nat.cast_one, one_mul] at h

theorem one_le_powerOfTen (exponent : Nat) : 1 ≤ powerOfTen exponent := by
  exact rounds_one.le (powerOfTen_rounds exponent) (one_le_pow₀ (by norm_num))

theorem isFinite_powerOfTen {exponent : Nat} (h : exponent ≤ 308) :
    (powerOfTen exponent).isFinite = true := by
  have hle : powerOfTen exponent ≤ powerOfTen 308 :=
    (powerOfTen_rounds exponent).le (powerOfTen_rounds 308)
      (pow_le_pow_right₀ (by norm_num) h)
  exact isFinite_of_le (le_trans (ofNat_nonneg 1) (one_le_powerOfTen exponent))
    (by decide +kernel) hle

/-- Dividing by a power of ten makes nothing greater. -/
theorem isFinite_div_powerOfTen {x : Float} {exponent : Nat} (h : exponent ≤ 308) (hx : 0 ≤ x)
    (hf : x.isFinite = true) :
    0 ≤ x / powerOfTen exponent ∧ (x / powerOfTen exponent).isFinite = true := by
  have hone := one_le_powerOfTen exponent
  have hpower := isFinite_powerOfTen h
  have hnonneg := nonneg_div hx hf (lt_of_lt_of_le pos_one hone) hpower
  have hself : Rounds (x / 1) (value x) := by
    have h := div_rounds hf isFinite_one (by rw [value_one]; norm_num)
    rwa [value_one, div_one] at h
  exact ⟨hnonneg, isFinite_of_le hnonneg hself.of_value.1
    (div_le hx hf (le_self (isNaN_of_isFinite hf)) pos_one hpower hone)⟩

theorem isFinite_scaleDown {x : Float} {places : Nat} (hx : 0 ≤ x) (hf : x.isFinite = true) :
    (scaleDown x places).isFinite = true := by
  induction places using Nat.strong_induction_on generalizing x with
  | _ places ih =>
    unfold scaleDown
    split
    · rename_i hle
      exact (isFinite_div_powerOfTen hle hx hf).2
    · split
      · exact hf
      · obtain ⟨hx', hf'⟩ := isFinite_div_powerOfTen (le_refl 308) hx hf
        exact ih _ (by omega) hx' hf'

theorem isNaN_scale? {word : Nat} {exponent : Int} {x : Float} (hword : word ≤ Whole.maxWord)
    (h : scale? word exponent = some x) : x.isNaN = false := by
  have hf : (Float.ofNat word).isFinite = true := isFinite_word hword
  unfold scale? at h
  dsimp only at h
  split at h
  · cases h
    exact isNaN_of_isFinite (isFinite_scaleDown (ofNat_nonneg word) hf)
  · split at h
    · cases h
      rfl
    · split at h
      · cases h
      · rename_i hexponent
        split at h
        · cases h
        · cases h
          exact (mul_rounds hf (isFinite_powerOfTen (by omega))).isNaN

theorem isNaN_ofInt (n : Int) : (Float.ofInt n).isNaN = false := by
  cases n with
  | ofNat n => exact (ofNat_rounds n).isNaN
  | negSucc n => exact (isNaN_neg _).trans (ofNat_rounds (n + 1)).isNaN

theorem isNaN_wholeNumber (negative : Bool) (word : Nat) :
    (wholeNumber negative word).toFloat.isNaN = false := by
  unfold wholeNumber
  split
  · exact isNaN_ofInt _
  · split
    · exact isNaN_ofInt _
    · exact (isNaN_neg _).trans (ofNat_rounds word).isNaN

theorem isNaN_value? {negative : Bool} {parts : NumeralParts} {number : JsonNumber}
    (h : parts.value? negative = some number) : number.toFloat.isNaN = false := by
  have hwhole := gatherDigits_le (Nat.zero_le Whole.maxWord) parts.whole
  unfold NumeralParts.value? at h
  dsimp only at h
  split at h
  · cases h
    exact isNaN_wholeNumber negative _
  · obtain ⟨x, hx, rfl⟩ := Option.map_eq_some_iff.mp h
    have hx := isNaN_scale? (gatherDigits_le hwhole (parts.fraction.getD [])) hx
    show (if negative then -x else x).isNaN = false
    split
    · exact (isNaN_neg x).trans hx
    · exact hx

theorem isNaN_takeNumber {negative : Bool} {text : List UInt8} {number : JsonNumber}
    {rest : Shorter text} (h : takeNumber negative text = .ok (number, rest)) :
    number.toFloat.isNaN = false := by
  unfold takeNumber at h
  obtain ⟨⟨whole, afterWhole⟩, -, h⟩ := bind_ok h
  obtain ⟨⟨fraction, afterFraction⟩, -, h⟩ := bind_ok h
  obtain ⟨⟨exponent, afterExponent⟩, -, h⟩ := bind_ok h
  dsimp only at h
  split at h
  · cases h
  · rename_i hvalue
    cases h
    exact isNaN_value? hvalue

-- ---------------------------------------------------------------------------
-- Values
-- ---------------------------------------------------------------------------

/-- All numbers in a value are numbers. -/
inductive Numeric : Json → Prop
  | null : Numeric .null
  | bool (value : Bool) : Numeric (.bool value)
  | number {value : JsonNumber} : value.toFloat.isNaN = false → Numeric (.number value)
  | string (value : String) : Numeric (.string value)
  | array {items : List Json} : (∀ item ∈ items, Numeric item) → Numeric (.array items)
  | object {members : List (String × Json)} :
      (∀ member ∈ members, Numeric member.2) → Numeric (.object members)

theorem mem_insertMember {key : String} {value : Json} {members : List (String × Json)}
    {member : String × Json} (h : member ∈ insertMember key value members) :
    member = (key, value) ∨ member ∈ members := by
  induction members with
  | nil => exact .inl (List.mem_singleton.mp h)
  | cons first rest ih =>
    obtain ⟨name, other⟩ := first
    unfold insertMember at h
    split at h
    · exact List.mem_cons.mp h
    · split at h
      · obtain h | h := List.mem_cons.mp h
        · exact .inl h
        · exact .inr (List.mem_cons_of_mem _ h)
      · obtain rfl | h := List.mem_cons.mp h
        · exact .inr List.mem_cons_self
        · exact (ih h).imp_right (List.mem_cons_of_mem _)

mutual
theorem numeric_takeValue {levels : Nat} {text : List UInt8} {value : Json}
    {rest : Shorter text} (h : takeValue levels text = .ok (value, rest)) : value.Numeric := by
  have hskip := (skipSpaces text).2
  unfold takeValue at h
  dsimp only at h
  split at h
  · cases h
  rename_i b after hstart
  have hshort : after.length < text.length := by
    rw [hstart, List.length_cons] at hskip
    omega
  split at h
  · obtain ⟨left, -, h⟩ := bind_ok h
    cases h
    exact .null
  split at h
  · obtain ⟨left, -, h⟩ := bind_ok h
    cases h
    exact .bool true
  split at h
  · obtain ⟨left, -, h⟩ := bind_ok h
    cases h
    exact .bool false
  split at h
  · obtain ⟨⟨number, left⟩, hnumber, h⟩ := bind_ok h
    cases h
    exact .number (isNaN_takeNumber hnumber)
  split at h
  · obtain ⟨⟨number, left⟩, hnumber, h⟩ := bind_ok h
    cases h
    exact .number (isNaN_takeNumber hnumber)
  split at h
  · obtain ⟨⟨string, left⟩, -, h⟩ := bind_ok h
    cases h
    exact .string string
  split at h
  · split at h
    · cases h
    · obtain ⟨⟨items, left⟩, hitems, h⟩ := bind_ok h
      cases h
      exact .array (numeric_takeItems hitems)
  split at h
  · split at h
    · cases h
    · obtain ⟨⟨members, left⟩, hmembers, h⟩ := bind_ok h
      cases h
      exact .object (numeric_takeMembers (List.forall_mem_nil _) hmembers)
  · cases h
termination_by 2 * text.length
decreasing_by all_goals omega
theorem numeric_takeItems {levels : Nat} {isFirst : Bool} {text : List UInt8} {items : List Json}
    {rest : Rest text} (h : takeItems levels isFirst text = .ok (items, rest)) :
    ∀ item ∈ items, item.Numeric := by
  unfold takeItems at h
  obtain ⟨next, -, h⟩ := bind_ok h
  cases next with
  | close rest =>
    cases h
    exact nofun
  | item start =>
    obtain ⟨⟨item, afterItem⟩, hitem, h⟩ := bind_ok h
    obtain ⟨⟨items, rest⟩, hitems, h⟩ := bind_ok h
    cases h
    exact List.forall_mem_cons.mpr ⟨numeric_takeValue hitem, numeric_takeItems hitems⟩
termination_by 2 * text.length + 1
decreasing_by
  · have := start.2; omega
  · have := start.2; have := afterItem.2; omega
theorem numeric_takeMembers {levels : Nat} {isFirst : Bool} {members result : List (String × Json)}
    {text : List UInt8} {rest : Rest text} (hmembers : ∀ member ∈ members, member.2.Numeric)
    (h : takeMembers levels isFirst members text = .ok (result, rest)) :
    ∀ member ∈ result, member.2.Numeric := by
  unfold takeMembers at h
  obtain ⟨next, -, h⟩ := bind_ok h
  cases next with
  | close rest =>
    cases h
    exact hmembers
  | item start =>
    obtain ⟨⟨key, afterKey⟩, -, h⟩ := bind_ok h
    obtain ⟨afterColon, -, h⟩ := bind_ok h
    obtain ⟨⟨value, afterValue⟩, hvalue, h⟩ := bind_ok h
    obtain ⟨⟨later, rest⟩, hrest, h⟩ := bind_ok h
    cases h
    have hvalue := numeric_takeValue hvalue
    refine numeric_takeMembers (fun member hmember => ?_) hrest
    obtain rfl | hmember := mem_insertMember hmember
    · exact hvalue
    · exact hmembers member hmember
termination_by 2 * text.length + 1
decreasing_by
  · have := start.2; have := afterKey.2; have := afterColon.2; omega
  · have := start.2; have := afterKey.2; have := afterColon.2; have := afterValue.2; omega
end

theorem numeric_readPrefix {text rest : List UInt8} {value : Json}
    (h : readPrefix text = .ok (value, rest)) : value.Numeric := by
  obtain ⟨⟨value, left⟩, hvalue, h⟩ := bind_ok h
  cases h
  exact numeric_takeValue hvalue

end Json

end FairProgram
