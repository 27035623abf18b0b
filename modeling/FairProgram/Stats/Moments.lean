import FairProgram.Scalar
import FairProgram.Whole

/-!
# Moments and ranges

Mean and population deviation, least and greatest value, and evenly spaced points.
-/

namespace FairProgram.Stats

open Scalar

section
variable {α : Type} [Scalar α] [Add α] [Sub α] [Mul α] [Div α]

/-- The sum over the count; no values have no mean, which the division gives as not a number. -/
def mean (values : List α) : α :=
  total values / ofNat values.length

def variance (values : List α) : α :=
  let centre := mean values
  total (values.map fun v => (v - centre) * (v - centre)) / ofNat values.length

/-- `count` evenly spaced points from `start` to `stop`. The last one is `stop` itself, and a single
point is `start`. -/
def evenlySpaced (start stop : α) : Nat → List α
  | 0 => []
  | 1 => [start]
  | steps + 1 =>
    let step := (stop - start) / ofNat steps
    (List.range steps).map (fun i => start + step * ofNat i) ++ [stop]

@[simp] theorem length_evenlySpaced (start stop : α) (count : Nat) :
    (evenlySpaced start stop count).length = count := by
  match count with
  | 0 => rfl
  | 1 => rfl
  | n + 2 => simp [evenlySpaced]

end

/-- Evenly spaced points, if a list can hold as many. -/
def evenlySpaced? (start stop : Float) (count : Nat) : Option (List Float) :=
  if count ≤ Whole.maxDoubles then some (evenlySpaced start stop count) else none

def deviation (values : List Float) : Float :=
  (variance values).sqrt

section
variable {α : Type} [LT α] [DecidableLT α] [BEq α]

def range? : List α → Option (α × α)
  | [] => none
  | first :: rest => some (rest.foldl least first, rest.foldl greatest first)

end

end FairProgram.Stats
