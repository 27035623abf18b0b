import FairProgram.Proofs.Decimal.Units
import FairProgram.Proofs.Double.Comparison
import Mathlib

/-!
# The order of literals

The numbers printed for finite doubles are in the order of the doubles (`fixedValue_mono`), and those
printed for edges in general are, with infinite ones at both ends (`NotAbove.of_le`). The sign of a
literal goes where all its digits are zeros (`toList_literal`), so that no literal is a negative zero
(`fixedValue_neg`).
-/

namespace FairProgram.Decimal

open Double

-- ---------------------------------------------------------------------------
-- Signs
-- ---------------------------------------------------------------------------

section
variable {digits : List Char} {n places : Nat} {x y : Float}

theorem ofDigits_eq_zero_iff (h : ∀ c ∈ digits, c.isDigit = true) :
    ofDigits digits = 0 ↔ ∀ c ∈ digits, c = '0' := by
  induction digits with
  | nil => exact ⟨fun _ => List.forall_mem_nil _, fun _ => rfl⟩
  | cons c rest ih =>
    obtain ⟨hc, hrest⟩ := List.forall_mem_cons.mp h
    have hfirst : ofDigits [c] = c.toNat - '0'.toNat := by simp [ofDigits]
    have hzero : c.toNat - '0'.toNat = 0 ↔ c = '0' := by
      have hle : '0'.toNat ≤ c.toNat := (Char.isDigit_iff_toNat.mp hc).1
      rw [Nat.sub_eq_zero_iff_le, ← Char.toNat_inj]
      exact ⟨fun h => Nat.le_antisymm h hle, fun h => h.le⟩
    have hpow : Whole.powTen rest.length ≠ 0 := (Whole.powTen_pos _).ne'
    rw [← List.singleton_append, ofDigits_append, Nat.add_eq_zero_iff, Nat.mul_eq_zero,
      or_iff_left hpow, hfirst, hzero, ih hrest, List.singleton_append, List.forall_mem_cons]

theorem magnitude_zeros_iff :
    (∀ c ∈ (magnitude n places).toList, c = '0' ∨ c = '.') ↔ n = 0 := by
  obtain ⟨whole, fraction, htext, hne, hall, hlength, rfl⟩ := magnitude_digits n places
  rw [htext, ofDigits_eq_zero_iff hall]
  constructor
  · intro h c hc
    have hpoint : c ∈ whole ++ point fraction := by
      obtain hc | hc := List.mem_append.mp hc
      · exact List.mem_append_left _ hc
      · refine List.mem_append_right _ ?_
        rw [point, List.isEmpty_eq_false_iff.mpr (List.ne_nil_of_mem hc)]
        exact List.mem_cons_of_mem _ hc
    refine (h c hpoint).resolve_right ?_
    rintro rfl
    exact absurd (hall _ hc) (by decide)
  · intro h c hc
    obtain hc | hc := List.mem_append.mp hc
    · exact .inl (h c (List.mem_append_left _ hc))
    · exact (mem_point hc).symm.imp_left fun hc => h c (List.mem_append_right _ hc)

theorem minus_not_mem_magnitude (n places : Nat) : '-' ∉ (magnitude n places).toList := by
  intro h
  have h := mem_magnitude h
  revert h
  decide

/-- The exact value of a finite double, rounded half to even, with its sign in any case. -/
def signedLiteral (x : Float) (places : Nat) : List Char :=
  (if (ofFloat x).negative then ['-'] else []) ++
    (magnitude (fixedUnits (ofFloat x) places) places).toList

/-- A text without a sign in front of zeros. -/
def dropZeroSign : List Char → List Char
  | '-' :: rest => if rest.all fun c => c == '0' || c == '.' then rest else '-' :: rest
  | text => text

theorem toList_literal (hx : x.isFinite = true) (places : Nat) :
    (literal x places).toList = dropZeroSign (signedLiteral x places) := by
  rw [literal_of_isFinite hx, signedLiteral]
  generalize fixedUnits (ofFloat x) places = n
  cases (ofFloat x).negative with
  | false =>
    have hminus := minus_not_mem_magnitude n places
    simp only [Bool.false_and, Bool.false_eq_true, if_false, String.empty_append, List.nil_append]
    unfold dropZeroSign
    split
    · rename_i htext
      exact absurd (htext ▸ List.mem_cons_self) hminus
    · rfl
  | true =>
    have hzeros : (magnitude n places).toList.all (fun c => c == '0' || c == '.') = true ↔
        n = 0 := by
      simpa using magnitude_zeros_iff
    by_cases hn : n = 0
    · have hall := hzeros.mpr hn
      simp only [if_true, List.singleton_append, dropZeroSign, hall]
      simp [hn]
    · simp [dropZeroSign, hzeros, hn]

/-- What rounds to zero from below has no sign. -/
example : literal (-0.00001) 4 = "0.0000" := by
  decide +kernel

-- ---------------------------------------------------------------------------
-- Order
-- ---------------------------------------------------------------------------

theorem units_mono (hx : x.isFinite = true) (hy : y.isFinite = true) (h : x ≤ y) (places : Nat) :
    units x places ≤ units y places :=
  halfEven_mono (mul_le_mul_of_nonneg_right ((le_iff_value hx hy).mp h) (by positivity))

theorem fixedValue_mono (hx : x.isFinite = true) (hy : y.isFinite = true) (h : x ≤ y)
    (places : Nat) : fixedValue x places ≤ fixedValue y places := by
  rw [fixedValue_eq hx, fixedValue_eq hy]
  have hunits := units_mono hx hy h places
  gcongr

theorem fixedValue_neg (hx : x.isFinite = true)
    (h : (literal x places).toList.head? = some '-') : fixedValue x places < 0 := by
  have hneg : units x places < 0 := by
    by_contra hpos
    rw [literal_eq_signedText hx, signedText, if_neg hpos, String.empty_append] at h
    exact minus_not_mem_magnitude _ _ (List.mem_of_mem_head? h)
  rw [fixedValue_eq hx]
  exact div_neg_of_neg_of_pos (by exact_mod_cast hneg) (by positivity)

-- ---------------------------------------------------------------------------
-- Edges
-- ---------------------------------------------------------------------------

/-- The number that a literal denotes, infinite or not. -/
def edge? (text : List Char) : Option (WithBot (WithTop ℚ)) :=
  if text = "-inf".toList then some ⊥
  else if text = "inf".toList then some ⊤
  else (Token.numeral? text).map fun q => WithBot.some (WithTop.some q)

/-- Two literals that denote numbers, the first at most the second. -/
def NotAbove (text other : List Char) : Prop :=
  ∃ a b, edge? text = some a ∧ edge? other = some b ∧ a ≤ b

theorem edge?_literal (hx : x.isFinite = true) (places : Nat) :
    edge? (literal x places).toList = some (WithBot.some (WithTop.some (fixedValue x places))) := by
  have hword {word : List Char} (hf : 'f' ∈ word) : (literal x places).toList ≠ word := by
    rintro rfl
    have hf := mem_literal_of_isFinite hx hf
    revert hf
    decide
  rw [edge?, if_neg (hword (by decide)), if_neg (hword (by decide)),
    Token.numeral?_literal hx, Option.map_some]

theorem edge?_infinity (places : Nat) : edge? (literal (1 / 0) places).toList = some ⊤ := by
  have hword : literal (1 / 0) places = "inf" := by
    rw [literal, if_neg (by decide), if_pos (by decide), if_neg (by decide)]
  rw [hword, edge?, if_neg (by decide), if_pos rfl]

theorem edge?_negInfinity (places : Nat) : edge? (literal (-1 / 0) places).toList = some ⊥ := by
  have hword : literal (-1 / 0) places = "-inf" := by
    rw [literal, if_neg (by decide), if_pos (by decide), if_pos (by decide)]
  rw [hword, edge?, if_pos rfl]

theorem NotAbove.of_le (h : x ≤ y) (places : Nat) :
    NotAbove (literal x places).toList (literal y places).toList := by
  obtain ⟨hx, hy, -⟩ := le_iff.mp h
  obtain hfx | rfl | rfl := eq_infinity hx
  · obtain hfy | rfl | rfl := eq_infinity hy
    · refine ⟨_, _, edge?_literal hfx places, edge?_literal hfy places, ?_⟩
      exact WithBot.coe_le_coe.mpr (WithTop.coe_le_coe.mpr (fixedValue_mono hfx hfy h places))
    · exact ⟨_, _, edge?_literal hfx places, edge?_infinity places, le_top⟩
    · exact absurd h (not_le_of_lt (negInfinity_lt hfx))
  · obtain hfy | rfl | rfl := eq_infinity hy
    · exact absurd h (not_le_of_lt (lt_infinity hfy))
    · exact ⟨_, _, edge?_infinity places, edge?_infinity places, le_rfl⟩
    · exact absurd h (by decide)
  · obtain hfy | rfl | rfl := eq_infinity hy
    · exact ⟨_, _, edge?_negInfinity places, edge?_literal hfy places, bot_le⟩
    · exact ⟨_, _, edge?_negInfinity places, edge?_infinity places, bot_le⟩
    · exact ⟨_, _, edge?_negInfinity places, edge?_negInfinity places, le_rfl⟩

end

end FairProgram.Decimal
