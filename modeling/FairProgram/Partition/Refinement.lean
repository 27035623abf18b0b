import FairProgram.Fit
import FairProgram.Partition.Gain
import FairProgram.Range

/-!
# Threshold search and refinement

A cut splits rows at a threshold of their conditioning value so that their subject values become
easier to describe. A refinement cuts again and again, always the rows hardest to describe next.
-/

namespace FairProgram

open Stats

/-- One row of a subject and a conditioning column, with its place in them. -/
structure Observation where
  position : Nat
  subject : Float
  conditioning : Float

/-- An accepted threshold, what it gains, and the rows on its two sides. -/
structure Cut where
  threshold : Float
  gain : Float
  below : List Observation
  above : List Observation

structure Segment where
  range : Range
  rows : List Observation

structure FittedRows where
  positions : List Nat
  fit : Fit

/-- The best single cut of two columns, with both sides fitted. -/
structure Split where
  threshold : Float
  gain : Float
  below : FittedRows
  above : FittedRows

structure RefinedBucket where
  range : Range
  rows : FittedRows

structure Refinement where
  buckets : List RefinedBucket

/-- The bounds between the buckets. Thresholds that are kept apart while segments are cut are the
same (`Partition.CutInto.thresholds_eq`). -/
def Refinement.thresholds (r : Refinement) : List Float :=
  r.buckets.dropLast.map (·.range.upper)

/-- Only a fit fails; the others end a search without an answer. -/
inductive SearchError where
  | lengthMismatch
  | emptyRange
  | capacity
  | fit (error : FitError)

namespace Partition

def observations? (subject conditioning : List Float) : Option (List Observation) :=
  if subject.length = conditioning.length then
    some ((subject.zip conditioning).zipIdx.map fun ((s, c), position) => ⟨position, s, c⟩)
  else none

def splitRows (rows : List Observation) (threshold : Float) :
    List Observation × List Observation :=
  rows.partition fun row => row.conditioning ≤ threshold

/-- The cut at a threshold, unless a side is empty or holds less than the required share of
`wholeSize` rows, or the gain is below `leastGain`. Both sides are counted in the bins of `parent`. -/
def cutOn? (p : Params) (wholeSize : Nat) (leastGain : Float) (parent : Histogram Float)
    (rows : List Observation) (threshold : Float) : Option Cut :=
  let (below, above) := splitRows rows threshold
  let leastSide := p.partitionShare * Float.ofNat wholeSize
  let tooSmall (side : List Observation) : Bool :=
    side.isEmpty || Float.ofNat side.length < leastSide
  if tooSmall below || tooSmall above then none
  else
    let gain := gainOnEdges parent (below.map (·.subject)) (above.map (·.subject))
    if gain < leastGain then none else some ⟨threshold, gain, below, above⟩

def cutAt? (p : Params) (wholeSize : Nat) (leastGain : Float) (rows : List Observation) :
    Float → Option Cut :=
  cutOn? p wholeSize leastGain (Histogram.equalWidth (rows.map (·.subject)) p.entropyBins) rows

/-- The thresholds tried: evenly spaced within one deviation around the mean. -/
def candidates (p : Params) (rows : List Observation) : List Float :=
  let values := rows.map (·.conditioning)
  let mu := mean values
  let sigma := deviation values
  evenlySpaced (mu - sigma) (mu + sigma) p.candidateThresholds

/-- The cut of greatest gain, the first of them where gains are equal. -/
def bestCut? (p : Params) (wholeSize : Nat) (leastGain : Float) (rows : List Observation) :
    Option Cut :=
  if rows.length < 2 then none
  else
    firstBest? (fun next best => best.gain < next.gain)
      ((candidates p rows).filterMap (cutAt? p wholeSize leastGain rows))

def fitRows (p : Params) (rows : List Observation) : Except SearchError FittedRows :=
  match Fit.ofValues (rows.map (·.subject)) p with
  | .ok fit => .ok ⟨rows.map (·.position), fit⟩
  | .error e => .error (.fit e)

def split (p : Params) (subject conditioning : List Float) :
    Except SearchError (Option Split) :=
  match observations? subject conditioning with
  | none => .error .lengthMismatch
  | some rows =>
    match bestCut? p rows.length (p.gainForCut 1) rows with
    | none => .ok none
    | some cut => do
      let below ← fitRows p cut.below
      let above ← fitRows p cut.above
      return some ⟨cut.threshold, cut.gain, below, above⟩

/-- The place of the segment whose subject values have the greatest entropy, the first of them. -/
def hardest? (p : Params) (segments : List Segment) : Option Nat :=
  let entropies := segments.map fun segment =>
    columnEntropy (segment.rows.map (·.subject)) p.entropyBins
  (firstBest? (fun (next best : Float × Nat) => best.1 < next.1) entropies.zipIdx).map (·.2)

/-- Cuts the hardest segment, at most `cuts` more times after `done` cuts, until one cannot be
cut. -/
def cutSegments (p : Params) (wholeSize : Nat) :
    (cuts done : Nat) → List Segment → Except SearchError (List Segment)
  | 0, _, segments => .ok segments
  | cuts + 1, done, segments =>
    match hardest? p segments with
    | none => .ok segments
    | some place =>
      match segments[place]? with
      | none => .ok segments
      | some segment =>
        match bestCut? p wholeSize (p.gainForCut (done + 1)) segment.rows with
        | none => .ok segments
        | some cut =>
          match segment.range.splitAt? cut.threshold with
          | none => .error .emptyRange
          | some (below, above) =>
            -- Both parts take the place of the segment, so that ranges stay in order.
            cutSegments p wholeSize cuts (done + 1)
              (segments.take place ++ ⟨below, cut.below⟩ :: ⟨above, cut.above⟩ ::
                segments.drop (place + 1))

def fitSegment (p : Params) (segment : Segment) : Except SearchError RefinedBucket := do
  let rows ← fitRows p segment.rows
  return ⟨segment.range, rows⟩

/-- Cuts two columns as often as `maxCuts` allows. Without any cut there is no refinement. -/
def refine (p : Params) (subject conditioning : List Float) :
    Except SearchError (Option Refinement) :=
  match observations? subject conditioning with
  | none => .error .lengthMismatch
  | some rows => do
    let segments ← cutSegments p rows.length p.maxCuts 0 [⟨.unbounded, rows⟩]
    if segments.length ≤ 1 then return none
    let buckets ← segments.mapM (fitSegment p)
    return some ⟨buckets⟩

end Partition

end FairProgram
