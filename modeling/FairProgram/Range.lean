import FairProgram.Decimal.Shortest

/-!
# Ranges

Half-open intervals of a conditioning column. The ranges of one partition cover the line: each
starts where the one before it ends.
-/

namespace FairProgram

/-- The values above `lower` up to `upper`, `upper` included. -/
structure Range where
  lower : Float
  upper : Float

namespace Range

/-- The range between two bounds, unless it would be empty. -/
def ofBounds? (lower upper : Float) : Option Range :=
  if lower < upper then some ⟨lower, upper⟩ else none

def unbounded : Range :=
  ⟨-1 / 0, 1 / 0⟩

def contains (r : Range) (value : Float) : Bool :=
  r.lower < value && value ≤ r.upper

/-- The parts up to and above a threshold, where neither of them is empty. -/
def splitAt? (r : Range) (threshold : Float) : Option (Range × Range) := do
  let below ← ofBounds? r.lower threshold
  let above ← ofBounds? threshold r.upper
  return (below, above)

def text (r : Range) : String :=
  "(" ++ Decimal.plain r.lower ++ ", " ++ Decimal.plain r.upper ++ "]"

end Range

end FairProgram
