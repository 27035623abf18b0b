import FairProgram.Proofs.Double.Finite
import FairProgram.Stats.Distance
import FairProgram.Stats.Distribution
import Mathlib

/-!
# Distances of distribution functions that are not numbers

Gaps that are not numbers give way to any other gap, so that a distribution function that is nowhere
a number is at no distance from any sample (`ksDistance_of_isNaN`). The normal distribution function
is such a one where neither its mean nor its deviation is finite (`isNaN_normalCdf`).
-/

namespace FairProgram.Stats

open Double Scalar

variable {values : List Float} {cdf : Float → Float} {mu sigma x : Float}

-- ---------------------------------------------------------------------------
-- Normal distribution functions
-- ---------------------------------------------------------------------------

theorem isNaN_erf (h : x.isNaN = true) : (erf x).isNaN = true := by
  have ht : (1 / (1 + 0.3275911 * x.abs)).isNaN = true :=
    isNaN_div_right _ (isNaN_add_right _ (isNaN_mul_right _ (isNaN_abs h)))
  exact isNaN_mul_right _ (isNaN_sub_right _ (isNaN_mul_left (isNaN_mul_right _ ht) _))

theorem isNaN_normalCdf (hmu : mu.isFinite = false) (hsigma : sigma.isFinite = false) (x : Float) :
    (normalCdf mu sigma x).isNaN = true := by
  have hdistance : (x - mu).isFinite = false :=
    Bool.eq_false_iff.mpr fun h => Bool.eq_false_iff.mp hmu (isFinite_of_sub h).2
  have hscale : (sigma * 1.4142135623730951).isFinite = false :=
    Bool.eq_false_iff.mpr fun h => Bool.eq_false_iff.mp hsigma (isFinite_of_mul h).1
  exact isNaN_mul_right _ (isNaN_add_right _ (isNaN_erf (isNaN_div hdistance hscale)))

-- ---------------------------------------------------------------------------
-- Distances
-- ---------------------------------------------------------------------------

theorem not_lt_of_isNaN {a b : Float} (h : b.isNaN = true) : ¬ a < b := fun hlt => by
  rw [(lt_iff.mp hlt).2.1] at h
  cases h

theorem isNaN_greatest {a b : Float} (ha : a.isNaN = true) (hb : b.isNaN = true) :
    (greatest a b).isNaN = true := by
  have hself : ¬ (a == a) = true := fun h => by
    rw [(beq_iff.mp h).1] at ha
    cases ha
  rw [greatest, if_neg (not_lt_of_isNaN hb), if_neg hself]
  exact hb

theorem greatest_of_isNaN {a b : Float} (ha : a.isNaN = false) (hb : b.isNaN = true) :
    greatest a b = a := by
  rw [greatest, if_neg (not_lt_of_isNaN hb), if_pos (beq_iff.mpr ⟨ha, ha, rfl⟩)]

theorem foldl_greatest_of_isNaN {start : Float} (hstart : start.isNaN = false)
    {gaps : List Float} (h : ∀ gap ∈ gaps, gap.isNaN = true) :
    gaps.foldl greatest start = start := by
  induction gaps with
  | nil => rfl
  | cons gap rest ih =>
    obtain ⟨hgap, hrest⟩ := List.forall_mem_cons.mp h
    rw [List.foldl_cons, greatest_of_isNaN hstart hgap]
    exact ih hrest

theorem le_foldl_greatest {start : Float} (hstart : start.isNaN = false) (gaps : List Float) :
    start ≤ gaps.foldl greatest start := by
  induction gaps generalizing start with
  | nil => exact le_self hstart
  | cons gap rest ih =>
    rw [List.foldl_cons, greatest]
    split
    · rename_i hlt
      exact le_trans (le_of_lt hlt) (ih (lt_iff.mp hlt).2.1)
    · rw [if_pos (beq_iff.mpr ⟨hstart, hstart, rfl⟩)]
      exact ih hstart

theorem ksDistance_of_isNaN (h : ∀ x, (cdf x).isNaN = true) :
    ksDistance values cdf = Float.ofNat 0 := by
  refine foldl_greatest_of_isNaN (isNaN_of_nonneg (ofNat_nonneg 0)) ?_
  rintro _ hgap
  obtain ⟨⟨v, rank⟩, -, rfl⟩ := List.mem_map.mp hgap
  exact isNaN_greatest (isNaN_sub_right _ (h v)) (isNaN_sub_left (h v) _)

theorem ksDistance_nonneg (values : List Float) (cdf : Float → Float) :
    Float.ofNat 0 ≤ ksDistance values cdf :=
  le_foldl_greatest (isNaN_of_nonneg (ofNat_nonneg 0)) _

end FairProgram.Stats
