import FairProgram.Scalar

/-!
# Distribution functions

The normal distribution function, by an approximation of the error function, and the distribution
function of mass spread evenly over buckets.
-/

namespace FairProgram.Stats

open Scalar

/-- The error function by the Abramowitz and Stegun formula 7.1.26, to within 1.5e-7. -/
def erf (x : Float) : Float :=
  let sign : Float := if 0 ≤ x then 1 else -1
  let x := x.abs
  let t := 1 / (1 + 0.3275911 * x)
  let cubic := (1.061405429 * t + -1.453152027) * t + 1.421413741
  let series := ((cubic * t + -0.284496736) * t + 0.254829592) * t
  sign * (1 - series * (-x * x).exp)

def normalCdf (mean deviation x : Float) : Float :=
  0.5 * (1 + erf ((x - mean) / (deviation * 1.4142135623730951)))

structure Bucket (α : Type) where
  lower : α
  upper : α
  mass : α

/-- The buckets between consecutive edges, as far as there are both edges and masses. -/
def Bucket.ofEdges {α : Type} : List α → List α → List (Bucket α)
  | lower :: upper :: edges, mass :: masses =>
    ⟨lower, upper, mass⟩ :: Bucket.ofEdges (upper :: edges) masses
  | _, _ => []

section
variable {α : Type} [Scalar α] [Add α] [Sub α] [Mul α] [Div α] [LE α] [DecidableLE α]

/-- The mass of the buckets up to `x`, added to `below`; the bucket around `x` counts in proportion.
Buckets come in increasing order, so the first one that starts at `x` or above ends the sum. -/
def massUpTo (x below : α) : List (Bucket α) → α
  | [] => below
  | b :: rest =>
    if x ≤ b.lower then below
    else if b.upper ≤ x then massUpTo x (below + b.mass) rest
    else massUpTo x (below + (x - b.lower) / (b.upper - b.lower) * b.mass) rest

def stepCdf (buckets : List (Bucket α)) (x : α) : α :=
  massUpTo x (ofNat 0) buckets

/-- The distribution function of masses between edges. It is undefined where it would need an edge
that is missing: where masses are left over and no bucket before them starts at `x` or above. -/
def stepCdf? (edges masses : List α) (x : α) : Option α :=
  let buckets := Bucket.ofEdges edges masses
  if masses.length ≤ edges.length - 1 ∨ buckets.any (fun b => x ≤ b.lower) then
    some (stepCdf buckets x)
  else none

end

end FairProgram.Stats
