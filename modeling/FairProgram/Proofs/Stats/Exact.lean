import FairProgram.Stats.Moments
import Mathlib

/-!
# Statistics in exact arithmetic

Every ordered field whose numbers have whole parts is a number type of the statistics. There the
sums, the lesser and greater values and the ranges of the kernels are those of the field
(`total_eq_sum`, `range?_eq_some_iff`), whatever the order of the values.
-/

namespace FairProgram

instance exactScalar {K : Type} [Field K] [LinearOrder K] [FloorSemiring K] : Scalar K where
  ofNat := Nat.cast
  truncate := Nat.floor

namespace Scalar

variable {K : Type} [Field K] [LinearOrder K] [FloorSemiring K]

@[simp] theorem ofNat_eq_cast (n : Nat) : (ofNat n : K) = n := rfl

@[simp] theorem truncate_eq_floor (a : K) : truncate a = ⌊a⌋₊ := rfl

theorem total_eq_sum (values : List K) : total values = values.sum := by
  rw [List.sum_eq_foldl, total, ofNat_eq_cast, Nat.cast_zero]

omit [Field K] [FloorSemiring K] in
@[simp] theorem least_eq_min (a b : K) : least a b = min a b := by
  unfold least
  split
  · exact (min_eq_right (le_of_lt ‹_›)).symm
  · rw [if_pos (beq_self_eq_true a), min_eq_left (not_lt.mp ‹_›)]

omit [Field K] [FloorSemiring K] in
@[simp] theorem greatest_eq_max (a b : K) : greatest a b = max a b := by
  unfold greatest
  split
  · exact (max_eq_right (le_of_lt ‹_›)).symm
  · rw [if_pos (beq_self_eq_true a), max_eq_left (not_lt.mp ‹_›)]

end Scalar

namespace Stats

open Scalar

variable {K : Type} [LinearOrder K] {values : List K} {low high : K}

theorem range?_eq_some_iff :
    range? values = some (low, high) ↔ values.min? = some low ∧ values.max? = some high := by
  cases values with
  | nil => simp [range?]
  | cons first rest =>
    have hleast : (least : K → K → K) = min := funext₂ least_eq_min
    have hgreatest : (greatest : K → K → K) = max := funext₂ greatest_eq_max
    rw [range?, hleast, hgreatest, List.min?_cons', List.max?_cons', Option.some_inj,
      Option.some_inj, Option.some_inj, Prod.mk.injEq]

end Stats

end FairProgram
