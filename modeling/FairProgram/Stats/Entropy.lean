import FairProgram.Stats.Histogram

/-!
# Entropy

Shannon entropy in nats, of shares and of histogram counts.
-/

namespace FairProgram.Stats

open Scalar

section
variable {α : Type} [Scalar α] [HasLog α] [Add α] [Mul α] [Div α] [Neg α] [LT α] [LE α]
  [DecidableLT α] [DecidableLE α]

/-- The entropy of shares, scaled to add up to one. Empty shares count nothing, and without any
positive total the entropy is zero. -/
def entropy (shares : List α) : α :=
  let whole := total shares
  if whole ≤ ofNat 0 then ofNat 0
  else
    let positive := shares.filter fun p => ofNat 0 < p
    total (positive.map fun p => -(p / whole) * HasLog.log (p / whole))

def Histogram.entropy (h : Histogram α) : α :=
  Stats.entropy (h.shares h.size)

end

end FairProgram.Stats
