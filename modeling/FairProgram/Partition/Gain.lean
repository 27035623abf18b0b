import FairProgram.Stats.Entropy

/-!
# Information gain

How much easier a column becomes to describe when its rows are split in two. Both sides are counted
in the bins of the unsplit column, so no count is lost between them.
-/

namespace FairProgram

open Scalar Stats

section
variable {α : Type} [Scalar α] [HasLog α] [Add α] [Sub α] [Mul α] [Div α] [Neg α] [LT α] [LE α]
  [DecidableLT α] [DecidableLE α] [BEq α]

def columnEntropy (values : List α) (bins : Nat) : α :=
  (Histogram.equalWidth values bins).entropy

/-- The entropy of a histogram less the entropies of two sides on its edges, weighted by size. -/
def gainOnEdges (parent : Histogram α) (below above : List α) : α :=
  let rows := ofNat (below.length + above.length)
  let sideEntropy (side : List α) : α := (Histogram.ofEdges side parent.edges).entropy
  if rows == ofNat 0 then ofNat 0
  else
    let belowShare := ofNat below.length / rows
    let aboveShare := ofNat above.length / rows
    parent.entropy - (belowShare * sideEntropy below + aboveShare * sideEntropy above)

/-- The gain of splitting a subject column where a conditioning column passes a threshold. -/
def informationGain (subject conditioning : List α) (threshold : α) (bins : Nat) : α :=
  let (below, above) := (subject.zip conditioning).partition fun row => row.2 ≤ threshold
  gainOnEdges (Histogram.equalWidth subject bins) (below.map (·.1)) (above.map (·.1))

def informationGain? (subject conditioning : List α) (threshold : α) (bins : Nat) : Option α :=
  if subject.length = conditioning.length then
    some (informationGain subject conditioning threshold bins)
  else none

end

def columnEntropy? (values : List Float) (bins : Nat) : Option Float :=
  (Histogram.equalWidth? values bins).map (·.entropy)

section
variable {values : List Float} {bins : Nat}

theorem columnEntropy?_eq_some (h : bins < Whole.maxDoubles) :
    columnEntropy? values bins = some (columnEntropy values bins) := by
  rw [columnEntropy?, Histogram.equalWidth?_eq_some h]
  rfl

theorem columnEntropy?_eq_none (h : Whole.maxDoubles ≤ bins) : columnEntropy? values bins = none := by
  rw [columnEntropy?, Histogram.equalWidth?_eq_none h]
  rfl

end

end FairProgram
