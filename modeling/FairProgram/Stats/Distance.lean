import FairProgram.Scalar

/-!
# Kolmogorov-Smirnov distance

The greatest gap between a sample and a distribution function.
-/

namespace FairProgram.Stats

open Scalar

section
variable {α : Type} [LT α] [DecidableLT α]

/-- Puts a value into values in decreasing order, in front of those equal to it. A value that is not
a number stays in front. -/
def insertDecreasing (value : α) : List α → List α
  | [] => [value]
  | head :: rest =>
    if value < head then head :: insertDecreasing value rest else value :: head :: rest

/-- The values in increasing order, equal ones in the order given. A value that is not a number
compares with nothing: it stays where it comes, and later values do not pass it. -/
def increasing (values : List α) : List α :=
  (values.foldl (fun sorted value => insertDecreasing value sorted) []).reverse

end

section
variable {α : Type} [Scalar α] [Sub α] [Div α] [LT α] [DecidableLT α] [BEq α]

/-- The greatest of the gaps between the distribution function and the sample's steps, before and
after each value; zero without values. -/
def ksDistance (values : List α) (cdf : α → α) : α :=
  let count := ofNat values.length
  let gaps := (increasing values).zipIdx.map fun (value, rank) =>
    let mass := cdf value
    greatest (ofNat (rank + 1) / count - mass) (mass - ofNat rank / count)
  gaps.foldl greatest (ofNat 0)

def ksDistance? (values : List α) (cdf : α → α) : Option α :=
  if values.isEmpty then none else some (ksDistance values cdf)

end

end FairProgram.Stats
