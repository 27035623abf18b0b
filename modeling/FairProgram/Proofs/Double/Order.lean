import FairProgram.Range
import Mathlib

/-!
# The order of doubles

Doubles other than NaN compare as their ranks, which are ordered linearly, and NaN compares with
nothing (`lt_iff`, `le_iff`, `beq_iff`). All that the search for thresholds needs of its comparisons
follows from this; no arithmetic is involved.
-/

namespace FairProgram.Double

open Float.Model

-- ---------------------------------------------------------------------------
-- Ranks
-- ---------------------------------------------------------------------------

/-- Sign first, then exponent, then mantissa, the last two reversed below zero. -/
def rank : UnpackedFloat → ℤ ×ₗ ℤ ×ₗ ℤ
  | .infinity .negative => toLex (-2, toLex (0, 0))
  | .finite .negative mantissa exponent _ => toLex (-1, toLex (-exponent, -mantissa))
  | .zero _ | .notANumber => toLex (0, toLex (0, 0))
  | .finite .positive mantissa exponent _ => toLex (1, toLex (exponent, mantissa))
  | .infinity .positive => toLex (2, toLex (0, 0))

theorem compare_neg (a b : ℤ) : compare (-a) (-b) = compare b a := by
  rcases lt_trichotomy a b with h | rfl | h
  · rw [compare_gt_iff_gt.mpr h, compare_gt_iff_gt.mpr (neg_lt_neg h)]
  · simp
  · rw [compare_lt_iff_lt.mpr h, compare_lt_iff_lt.mpr (neg_lt_neg h)]

theorem compare_natCast (a b : Nat) : compare (a : ℤ) (b : ℤ) = compare a b := by
  rcases lt_trichotomy a b with h | rfl | h
  · rw [compare_lt_iff_lt.mpr h, compare_lt_iff_lt.mpr (Int.ofNat_lt.mpr h)]
  · simp
  · rw [compare_gt_iff_gt.mpr h, compare_gt_iff_gt.mpr (Int.ofNat_lt.mpr h)]

theorem compare_eq_rank {a b : UnpackedFloat} (ha : a.isNaN = false) (hb : b.isNaN = false) :
    a.compare b = some (compare (rank a) (rank b)) := by
  cases a with
  | notANumber => simp [UnpackedFloat.isNaN] at ha
  | infinity s =>
    cases b with
    | notANumber => simp [UnpackedFloat.isNaN] at hb
    | infinity s' => cases s <;> cases s' <;> rfl
    | zero s' => cases s <;> rfl
    | finite s' m' e' hm' => cases s <;> cases s' <;> rfl
  | zero s =>
    cases b with
    | notANumber => simp [UnpackedFloat.isNaN] at hb
    | infinity s' => cases s' <;> rfl
    | zero s' => rfl
    | finite s' m' e' hm' => cases s' <;> rfl
  | finite s m e hm =>
    cases b with
    | notANumber => simp [UnpackedFloat.isNaN] at hb
    | infinity s' => cases s <;> cases s' <;> rfl
    | zero s' => cases s <;> rfl
    | finite s' m' e' hm' =>
      cases s with
      | negative =>
        cases s' with
        | negative =>
          have h : compare (rank (.finite .negative m e hm)) (rank (.finite .negative m' e' hm')) =
              (compare (-e) (-e')).then (compare (-(m : ℤ)) (-(m' : ℤ))) := rfl
          rw [h, compare_neg, compare_neg, compare_natCast, ← Int.compare_swap,
            ← Nat.compare_swap, ← Ordering.swap_then]
          rfl
        | positive => rfl
      | positive =>
        cases s' with
        | negative => rfl
        | positive =>
          have h : compare (rank (.finite .positive m e hm)) (rank (.finite .positive m' e' hm')) =
              (compare e e').then (compare (m : ℤ) (m' : ℤ)) := rfl
          rw [h, compare_natCast]
          rfl

/-- Two numbers compare as their ranks do, and anything else compares with nothing. -/
theorem compare_cases (x y : Float) :
    (x.isNaN = false ∧ y.isNaN = false ∧ x.toModel.unpack.compare y.toModel.unpack =
      some (compare (rank x.toModel.unpack) (rank y.toModel.unpack))) ∨
    (¬ (x.isNaN = false ∧ y.isNaN = false) ∧
      x.toModel.unpack.compare y.toModel.unpack = none) := by
  by_cases h : x.isNaN = false ∧ y.isNaN = false
  · exact .inl ⟨h.1, h.2, compare_eq_rank h.1 h.2⟩
  · refine .inr ⟨h, ?_⟩
    have h : ¬ (x.toModel.unpack.isNaN = false ∧ y.toModel.unpack.isNaN = false) := h
    cases hx : x.toModel.unpack <;> cases hy : y.toModel.unpack <;>
      simp_all [UnpackedFloat.isNaN, UnpackedFloat.compare]

theorem rank_of_isFinite {a : UnpackedFloat} (h : a.isFinite = true) :
    rank (.infinity .negative) < rank a ∧ rank a < rank (.infinity .positive) := by
  cases a with
  | infinity _ | notANumber => simp [UnpackedFloat.isFinite] at h
  | zero _ =>
    exact ⟨Prod.Lex.toLex_lt_toLex.mpr (.inl (by decide)),
      Prod.Lex.toLex_lt_toLex.mpr (.inl (by decide))⟩
  | finite s _ _ _ =>
    cases s with
    | negative =>
      exact ⟨Prod.Lex.toLex_lt_toLex.mpr (.inl (show (-2 : ℤ) < -1 by decide)),
        Prod.Lex.toLex_lt_toLex.mpr (.inl (show (-1 : ℤ) < 2 by decide))⟩
    | positive =>
      exact ⟨Prod.Lex.toLex_lt_toLex.mpr (.inl (show (-2 : ℤ) < 1 by decide)),
        Prod.Lex.toLex_lt_toLex.mpr (.inl (show (1 : ℤ) < 2 by decide))⟩

-- ---------------------------------------------------------------------------
-- Comparisons
-- ---------------------------------------------------------------------------

theorem lt_iff {x y : Float} : x < y ↔
    x.isNaN = false ∧ y.isNaN = false ∧ rank x.toModel.unpack < rank y.toModel.unpack := by
  have h : x < y ↔ (x.toModel.unpack.compare y.toModel.unpack == some .lt) = true :=
    decide_eq_true_iff
  rw [h]
  obtain ⟨hx, hy, hc⟩ | ⟨hn, hc⟩ := compare_cases x y
  · rw [hc, Option.some_beq_some, beq_iff_eq, compare_lt_iff_lt]
    exact ⟨fun hr => ⟨hx, hy, hr⟩, fun hr => hr.2.2⟩
  · simp only [hc, Option.none_beq_some, Bool.false_eq_true, false_iff]
    exact fun hr => hn ⟨hr.1, hr.2.1⟩

theorem le_iff {x y : Float} : x ≤ y ↔
    x.isNaN = false ∧ y.isNaN = false ∧ rank x.toModel.unpack ≤ rank y.toModel.unpack := by
  have h : x ≤ y ↔ (x.toModel.unpack.compare y.toModel.unpack).any (·.isLE) = true :=
    decide_eq_true_iff
  rw [h]
  obtain ⟨hx, hy, hc⟩ | ⟨hn, hc⟩ := compare_cases x y
  · rw [hc, Option.any_some, Ordering.isLE_iff_ne_gt, ← ne_eq, compare_le_iff_le]
    exact ⟨fun hr => ⟨hx, hy, hr⟩, fun hr => hr.2.2⟩
  · simp only [hc, Option.any_none, Bool.false_eq_true, false_iff]
    exact fun hr => hn ⟨hr.1, hr.2.1⟩

theorem beq_iff {x y : Float} : (x == y) = true ↔
    x.isNaN = false ∧ y.isNaN = false ∧ rank x.toModel.unpack = rank y.toModel.unpack := by
  have h : (x == y) = (x.toModel.unpack.compare y.toModel.unpack == some .eq) := rfl
  rw [h]
  obtain ⟨hx, hy, hc⟩ | ⟨hn, hc⟩ := compare_cases x y
  · rw [hc, Option.some_beq_some, beq_iff_eq, compare_eq_iff_eq]
    exact ⟨fun hr => ⟨hx, hy, hr⟩, fun hr => hr.2.2⟩
  · simp only [hc, Option.none_beq_some, Bool.false_eq_true, false_iff]
    exact fun hr => hn ⟨hr.1, hr.2.1⟩

section
variable {x y z : Float}

theorem isNaN_of_isFinite (h : x.isFinite = true) : x.isNaN = false := by
  have h : x.toModel.unpack.isFinite = true := h
  show x.toModel.unpack.isNaN = false
  cases hx : x.toModel.unpack <;> simp_all [UnpackedFloat.isFinite, UnpackedFloat.isNaN]

theorem isInf_of_isFinite (h : x.isFinite = true) : x.isInf = false := by
  have h : x.toModel.unpack.isFinite = true := h
  show x.toModel.unpack.isInf = false
  cases hx : x.toModel.unpack <;> simp_all [UnpackedFloat.isFinite, UnpackedFloat.isInf]

theorem negInfinity_lt (h : x.isFinite = true) : -1 / 0 < x :=
  lt_iff.mpr ⟨rfl, isNaN_of_isFinite h, (rank_of_isFinite h).1⟩

theorem lt_infinity (h : x.isFinite = true) : x < 1 / 0 :=
  lt_iff.mpr ⟨isNaN_of_isFinite h, rfl, (rank_of_isFinite h).2⟩

theorem lt_trans (hxy : x < y) (hyz : y < z) : x < z := by
  rw [lt_iff] at *
  exact ⟨hxy.1, hyz.2.1, hxy.2.2.trans hyz.2.2⟩

theorem lt_of_lt_of_le (hxy : x < y) (hyz : y ≤ z) : x < z := by
  rw [lt_iff] at *
  rw [le_iff] at hyz
  exact ⟨hxy.1, hyz.2.1, hxy.2.2.trans_le hyz.2.2⟩

theorem lt_of_le_of_lt (hxy : x ≤ y) (hyz : y < z) : x < z := by
  rw [lt_iff] at *
  rw [le_iff] at hxy
  exact ⟨hxy.1, hyz.2.1, hxy.2.2.trans_lt hyz.2.2⟩

theorem le_trans (hxy : x ≤ y) (hyz : y ≤ z) : x ≤ z := by
  rw [le_iff] at *
  exact ⟨hxy.1, hyz.2.1, hxy.2.2.trans hyz.2.2⟩

theorem le_self (h : x.isNaN = false) : x ≤ x :=
  le_iff.mpr ⟨h, h, le_rfl⟩

theorem le_of_lt (h : x < y) : x ≤ y := by
  rw [lt_iff] at h
  rw [le_iff]
  exact ⟨h.1, h.2.1, h.2.2.le⟩

theorem not_le_of_lt (h : x < y) : ¬ y ≤ x := by
  rw [lt_iff] at h
  rw [le_iff]
  exact fun hyx => hyx.2.2.not_gt h.2.2

theorem lt_of_not_le (hx : x.isNaN = false) (hy : y.isNaN = false) (h : ¬ x ≤ y) : y < x := by
  rw [le_iff] at h
  rw [lt_iff]
  exact ⟨hy, hx, not_le.mp fun hxy => h ⟨hx, hy, hxy⟩⟩

theorem le_of_not_lt (hx : x.isNaN = false) (hy : y.isNaN = false) (h : ¬ x < y) : y ≤ x := by
  rw [lt_iff] at h
  rw [le_iff]
  exact ⟨hy, hx, not_lt.mp fun hxy => h ⟨hx, hy, hxy⟩⟩

theorem beq_self {l : List Float} (h : ∀ x ∈ l, x.isNaN = false) : (l == l) = true := by
  induction l with
  | nil => rfl
  | cons x rest ih =>
    have hx := h x List.mem_cons_self
    rw [List.cons_beq_cons, beq_iff.mpr ⟨hx, hx, rfl⟩, Bool.true_and]
    exact ih fun y hy => h y (List.mem_cons_of_mem _ hy)

theorem lt_congr_left (h : (x == y) = true) : x < z ↔ y < z := by
  rw [beq_iff] at h
  rw [lt_iff, lt_iff, h.1, h.2.1, h.2.2]

theorem le_congr_right (h : (x == y) = true) : z ≤ x ↔ z ≤ y := by
  rw [beq_iff] at h
  rw [le_iff, le_iff, h.1, h.2.1, h.2.2]

end

end FairProgram.Double
