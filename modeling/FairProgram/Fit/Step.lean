import FairProgram.Double
import FairProgram.Params
import FairProgram.Selection
import FairProgram.Stats.Distribution
import FairProgram.Stats.Histogram

/-!
# Step distributions

Mass spread evenly over contiguous buckets. Probabilities are whole units of the last decimal place,
so that they add up to one exactly, in memory and in print.
-/

namespace FairProgram

open Stats Whole

/-- A step distribution: bucket `i` lies between edges `i` and `i + 1` and has `units[i]` units of
`10 ^ (-places)`. -/
structure StepFit where
  edges : List Float
  units : List Nat
  places : Nat
  units_ne_nil : units ≠ []
  length_edges : edges.length = units.length + 1

def clampUnit (p : Float) : Float :=
  if p < 0 then 0 else if 1 < p then 1 else p

/-- Takes `excess` from the last of the largest amounts, as far as that one goes. -/
def takeFromLargest (excess : Nat) (amounts : List Nat) : List Nat :=
  match firstBest? (fun (next best : Nat × Nat) => best.1 ≤ next.1) amounts.zipIdx with
  | none => amounts
  | some (_, largest) => amounts.modify largest fun amount => amount - excess

@[simp] theorem length_takeFromLargest (excess : Nat) (amounts : List Nat) :
    (takeFromLargest excess amounts).length = amounts.length := by
  unfold takeFromLargest
  split <;> simp

/-- The probabilities in units of `10 ^ (-places)`. All but the last are rounded to the nearest
unit, an excess over one is taken from the largest of these, and the last has what is left. -/
def quantize (probabilities : List Float) (places : Nat) : List Nat :=
  let whole := powTen places
  let rounded := probabilities.dropLast.map fun p => wholeUnits (clampUnit p * Float.ofNat whole)
  let others :=
    if whole < wordSum rounded then takeFromLargest (wordSum rounded - whole) rounded else rounded
  -- Taking from a single amount can leave an excess, and then the last has nothing.
  others ++ [whole - wordSum others]

theorem quantize_ne_nil (probabilities : List Float) (places : Nat) :
    quantize probabilities places ≠ [] := by
  simp [quantize]

theorem length_quantize {probabilities : List Float} (h : probabilities ≠ []) (places : Nat) :
    (quantize probabilities places).length = probabilities.length := by
  have := List.length_pos_iff.mpr h
  simp only [quantize, List.length_append, List.length_singleton]
  split <;> simp <;> omega

namespace StepFit

/-- The step distribution of probabilities between edges, to at most fifteen places. There must be a
bucket, and one edge more than buckets. -/
def ofProbabilities? (edges probabilities : List Float) (places : Nat) : Option StepFit :=
  if h : probabilities ≠ [] ∧ edges.length = probabilities.length + 1 then
    some {
      edges := edges
      units := quantize probabilities (min places maxDecimalPlaces)
      places := min places maxDecimalPlaces
      units_ne_nil := quantize_ne_nil _ _
      length_edges := by rw [length_quantize h.1]; exact h.2 }
  else none

/-- The step distribution of the values' histogram of `extra + 1` equal-width bins. -/
def ofValues (values : List Float) (extra places : Nat) : StepFit :=
  let histogram := Histogram.equalWidth values (extra + 1)
  let probabilities := histogram.shares values.length
  have length_probabilities : probabilities.length = extra + 1 := by
    simp [probabilities, histogram]
  { edges := histogram.edges
    units := quantize probabilities (min places maxDecimalPlaces)
    places := min places maxDecimalPlaces
    units_ne_nil := quantize_ne_nil _ _
    length_edges := by
      rw [length_quantize (List.ne_nil_of_length_eq_add_one length_probabilities),
        length_probabilities]
      exact Histogram.length_edges_equalWidth values (extra + 1) }

def probabilities (s : StepFit) : List Float :=
  s.units.map fun units => Float.ofNat units / Float.ofNat (powTen s.places)

def buckets (s : StepFit) : List (Bucket Float) :=
  Bucket.ofEdges s.edges s.probabilities

def mean (s : StepFit) : Float :=
  Scalar.total (s.buckets.map fun b => 0.5 * (b.lower + b.upper) * b.mass)

end StepFit

end FairProgram
