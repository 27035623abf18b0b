import FairProgram.Proofs.Stats.Exact
import FairProgram.Stats.Distribution
import Mathlib

/-!
# Masses of buckets in exact arithmetic

The distribution function of a histogram adds the masses of all buckets, each in proportion to the
part of the bucket below a point. The sum may end at the first bucket that is not below the point at
all, and a bucket is divided only where the point is inside it, so that no width is zero there
(`stepCdf?_isDistribution`).
-/

namespace FairProgram.Stats

open Scalar

-- ---------------------------------------------------------------------------
-- Divisions by zero
-- ---------------------------------------------------------------------------

/-- A number, or the fault of a division by zero on the way to it. -/
inductive Checked (K : Type) where
  | number (value : K)
  | fault

namespace Checked

variable {K : Type}

/-- An operation on two numbers; a fault of either one stays. -/
def both (op : K → K → Checked K) : Checked K → Checked K → Checked K
  | number a, number b => op a b
  | _, _ => fault

/-- Faults compare with nothing. -/
def le [LE K] : Checked K → Checked K → Prop
  | number a, number b => a ≤ b
  | _, _ => False

instance [LE K] : LE (Checked K) := ⟨le⟩

instance [LE K] [DecidableLE K] : DecidableLE (Checked K)
  | number a, number b => inferInstanceAs (Decidable (a ≤ b))
  | number _, fault | fault, number _ | fault, fault => inferInstanceAs (Decidable False)

variable [Field K] [LinearOrder K]

instance : Add (Checked K) := ⟨both fun a b => number (a + b)⟩

instance : Sub (Checked K) := ⟨both fun a b => number (a - b)⟩

instance : Mul (Checked K) := ⟨both fun a b => number (a * b)⟩

instance : Div (Checked K) := ⟨both fun a b => if b = 0 then fault else number (a / b)⟩

instance [FloorSemiring K] : Scalar (Checked K) where
  ofNat n := number n
  truncate
    | number a => ⌊a⌋₊
    | fault => 0

end Checked

-- ---------------------------------------------------------------------------
-- Parts of buckets
-- ---------------------------------------------------------------------------

theorem exists_edges {α : Type} {edges masses : List α} {mass : α}
    (h : edges.length = (mass :: masses).length + 1) :
    ∃ lower upper rest, edges = lower :: upper :: rest ∧
      (upper :: rest).length = masses.length + 1 := by
  match edges, h with
  | lower :: upper :: rest, h => exact ⟨lower, upper, rest, rfl, by simpa using h⟩

section
variable {K : Type} [Field K] [LinearOrder K]

/-- The part of a bucket that lies below `x`. -/
def partBelow (lower upper x : K) : K :=
  if x ≤ lower then 0
  else if upper ≤ x then 1
  else (x - lower) / (upper - lower)

/-- The masses between edges, as far as they lie below `x`. -/
def massBelow (edges masses : List K) (x : K) : K :=
  ∑ i ∈ Finset.range masses.length,
    masses.getD i 0 * partBelow (edges.getD i 0) (edges.getD (i + 1) 0) x

variable {edges masses : List K} {lower upper mass x y : K}

theorem massBelow_cons (lower upper mass : K) (edges masses : List K) (x : K) :
    massBelow (lower :: upper :: edges) (mass :: masses) x =
      mass * partBelow lower upper x + massBelow (upper :: edges) masses x := by
  rw [massBelow, List.length_cons, Finset.sum_range_succ', add_comm]
  rfl

/-- Where all edges are at `x` or above, no mass lies below it. -/
theorem massBelow_of_le (hlength : edges.length = masses.length + 1) (h : ∀ e ∈ edges, x ≤ e) :
    massBelow edges masses x = 0 := by
  refine Finset.sum_eq_zero fun i hi => ?_
  have hi : i < edges.length := by
    have := Finset.mem_range.mp hi
    omega
  rw [List.getD_eq_getElem _ _ hi, partBelow, if_pos (h _ (List.getElem_mem hi)), mul_zero]

/-- Where all edges are below `x`, so is all mass. -/
theorem massBelow_of_lt (hlength : edges.length = masses.length + 1) (h : ∀ e ∈ edges, e < x) :
    massBelow edges masses x = masses.sum := by
  induction masses generalizing edges with
  | nil => rfl
  | cons mass masses ih =>
    obtain ⟨lower, upper, rest, rfl, hbehind⟩ := exists_edges hlength
    obtain ⟨hlower, hupper⟩ := List.forall_mem_cons.mp h
    have hpart : partBelow lower upper x = 1 := by
      rw [partBelow, if_neg (not_le.mpr hlower), if_pos (hupper upper List.mem_cons_self).le]
    rw [massBelow_cons, ih hbehind hupper, hpart, mul_one, List.sum_cons]

variable [IsStrictOrderedRing K]

theorem partBelow_mem_unit (lower upper x : K) :
    0 ≤ partBelow lower upper x ∧ partBelow lower upper x ≤ 1 := by
  unfold partBelow
  split_ifs with hlow hhigh
  · exact ⟨le_rfl, zero_le_one⟩
  · exact ⟨zero_le_one, le_rfl⟩
  · rw [not_le] at hlow hhigh
    have hpart : 0 ≤ x - lower := by linarith
    have hwhole : 0 < upper - lower := by linarith
    exact ⟨div_nonneg hpart hwhole.le, (div_le_one hwhole).mpr (by linarith)⟩

theorem partBelow_mono (lower upper : K) : Monotone (partBelow lower upper) := by
  intro x y hxy
  by_cases hlow : x ≤ lower
  · rw [partBelow, if_pos hlow]
    exact (partBelow_mem_unit lower upper y).1
  by_cases hhigh : upper ≤ y
  · have hy : partBelow lower upper y = 1 := by
      rw [partBelow, if_neg fun h => hlow (hxy.trans h), if_pos hhigh]
    rw [hy]
    exact (partBelow_mem_unit lower upper x).2
  · rw [partBelow, partBelow, if_neg hlow, if_neg fun h => hlow (hxy.trans h),
      if_neg fun h => hhigh (h.trans hxy), if_neg hhigh]
    have hwhole : 0 ≤ upper - lower := by
      rw [not_le] at hlow hhigh
      linarith
    exact div_le_div_of_nonneg_right (by linarith) hwhole

theorem massBelow_mono (hm : ∀ mass ∈ masses, 0 ≤ mass) : Monotone (massBelow edges masses) := by
  intro x y hxy
  refine Finset.sum_le_sum fun i hi => mul_le_mul_of_nonneg_left (partBelow_mono _ _ hxy) ?_
  have hi := Finset.mem_range.mp hi
  rw [List.getD_eq_getElem _ _ hi]
  exact hm _ (List.getElem_mem hi)

end

-- ---------------------------------------------------------------------------
-- Distribution functions
-- ---------------------------------------------------------------------------

def Bucket.checked {K : Type} (b : Bucket K) : Bucket (Checked K) :=
  ⟨.number b.lower, .number b.upper, .number b.mass⟩

theorem ofEdges_checked {K : Type} (edges masses : List K) :
    Bucket.ofEdges (edges.map Checked.number) (masses.map Checked.number) =
      (Bucket.ofEdges edges masses).map Bucket.checked := by
  induction edges generalizing masses with
  | nil => rfl
  | cons lower rest ih => match rest, masses with
    | [], _ => rfl
    | _ :: _, [] => rfl
    | upper :: _, mass :: masses => exact congrArg (_ :: ·) (ih masses)

section
variable {K : Type} [Field K] [LinearOrder K] {edges masses : List K} {x : K}

/-- The sum that ends early is that of all buckets, since the edges behind its end are no lesser. -/
theorem massUpTo_eq (hlength : edges.length = masses.length + 1) (hs : edges.Pairwise (· ≤ ·))
    (below : K) :
    massUpTo x below (Bucket.ofEdges edges masses) = below + massBelow edges masses x := by
  induction masses generalizing edges below with
  | nil =>
    obtain ⟨edge, rfl⟩ := List.length_eq_one_iff.mp hlength
    exact (add_zero below).symm
  | cons mass masses ih =>
    obtain ⟨lower, upper, rest, rfl, hbehind⟩ := exists_edges hlength
    obtain ⟨hlower, hrest⟩ := List.pairwise_cons.mp hs
    rw [massBelow_cons, Bucket.ofEdges, massUpTo, partBelow]
    split_ifs with hlow hhigh
    · rw [massBelow_of_le hbehind fun e he => hlow.trans (hlower e he), mul_zero, add_zero,
        add_zero]
    · rw [ih hbehind hrest, mul_one, add_assoc]
    · rw [ih hbehind hrest, mul_comm mass, add_assoc]

/-- A bucket is divided only where the point is inside it, so that it has a width. -/
theorem massUpTo_checked (below : K) (buckets : List (Bucket K)) :
    massUpTo (.number x) (.number below) (buckets.map Bucket.checked) =
      .number (massUpTo x below buckets) := by
  induction buckets generalizing below with
  | nil => rfl
  | cons b rest ih =>
    have hlower : Checked.number x ≤ b.checked.lower ↔ x ≤ b.lower := .rfl
    have hupper : b.checked.upper ≤ Checked.number x ↔ b.upper ≤ x := .rfl
    simp only [List.map_cons, massUpTo, hlower, hupper]
    split_ifs with hlow hhigh
    · rfl
    · exact ih (below + b.mass)
    · have hwidth : b.upper - b.lower ≠ 0 := by
        rw [not_le] at hlow hhigh
        exact sub_ne_zero.mpr (hlow.trans hhigh).ne'
      rw [← ih]
      have hpart : (Checked.number x - b.checked.lower) / (b.checked.upper - b.checked.lower) =
          .number ((x - b.lower) / (b.upper - b.lower)) := if_neg hwidth
      rw [hpart]
      rfl

variable [IsStrictOrderedRing K] [FloorSemiring K]

/-- The distribution function of masses between increasing edges adds the parts of all masses below
a point, without any division by zero. It rises from zero to all mass. -/
theorem stepCdf?_isDistribution (hlength : edges.length = masses.length + 1)
    (hs : edges.Pairwise (· ≤ ·)) (hm : ∀ mass ∈ masses, 0 ≤ mass) :
    (∀ x, stepCdf? edges masses x = some (massBelow edges masses x)) ∧
      (∀ x, stepCdf? (edges.map Checked.number) (masses.map Checked.number) (.number x) =
        some (.number (massBelow edges masses x))) ∧
      Monotone (massBelow edges masses) ∧
      (∀ first ∈ edges.head?, ∀ x ≤ first, massBelow edges masses x = 0) ∧
      ∀ last ∈ edges.getLast?, ∀ x > last, massBelow edges masses x = masses.sum := by
  have hcdf (x : K) : stepCdf (Bucket.ofEdges edges masses) x = massBelow edges masses x := by
    rw [stepCdf, massUpTo_eq hlength hs, ofNat_eq_cast, Nat.cast_zero, zero_add]
  have hread : masses.length ≤ edges.length - 1 := by omega
  refine ⟨fun x => ?_, fun x => ?_, massBelow_mono hm, fun first hfirst x hx => ?_,
    fun last hlast x hx => ?_⟩
  · rw [stepCdf?, if_pos (.inl hread), hcdf]
  · rw [stepCdf?, if_pos (.inl (by simpa using hread)), ofEdges_checked, ← hcdf]
    have hzero : (ofNat 0 : Checked K) = .number (ofNat 0) := rfl
    rw [stepCdf, hzero, massUpTo_checked]
    rfl
  · refine massBelow_of_le hlength fun e he => hx.trans ?_
    obtain ⟨rest, rfl⟩ := List.head?_eq_some_iff.mp hfirst
    exact (List.mem_cons.mp he).elim (fun h => h.ge) ((List.pairwise_cons.mp hs).1 e)
  · refine massBelow_of_lt hlength fun e he => lt_of_le_of_lt ?_ hx
    obtain ⟨front, rfl⟩ := List.getLast?_eq_some_iff.mp hlast
    obtain h | h := List.mem_append.mp he
    · exact (List.pairwise_append.mp hs).2.2 e h last (List.mem_singleton_self last)
    · exact (List.mem_singleton.mp h).le

end

/-- The second bucket has no width, and its mass is added behind it at once. -/
def narrowEdges : List ℚ :=
  [0, 1, 1, 3]

def narrowMasses : List ℚ :=
  [1 / 4, 1 / 2, 1 / 4]

theorem stepCdf?_isDistribution_narrow : narrowEdges.length = narrowMasses.length + 1 ∧
    narrowEdges.Pairwise (· ≤ ·) ∧ (∀ mass ∈ narrowMasses, 0 ≤ mass) ∧
    stepCdf? narrowEdges narrowMasses 1 = some (massBelow narrowEdges narrowMasses 1) ∧
    massBelow narrowEdges narrowMasses 1 = 1 / 4 ∧
    stepCdf? narrowEdges narrowMasses 2 = some (massBelow narrowEdges narrowMasses 2) ∧
    massBelow narrowEdges narrowMasses 2 = 7 / 8 := by
  have hlength : narrowEdges.length = narrowMasses.length + 1 := rfl
  have hs : narrowEdges.Pairwise (· ≤ ·) := by decide +kernel
  have hm : ∀ mass ∈ narrowMasses, 0 ≤ mass := by decide +kernel
  obtain ⟨hcdf, -⟩ := stepCdf?_isDistribution hlength hs hm
  exact ⟨hlength, hs, hm, hcdf 1, by decide +kernel, hcdf 2, by decide +kernel⟩

end FairProgram.Stats
