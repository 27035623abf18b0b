import FairProgram.Partition.Refinement

/-!
# Search within capacity

The search of `Partition.split` and `Partition.refine` as it runs: it ends without an answer where a
histogram or a list of thresholds would be longer than a list can be.
-/

namespace FairProgram.Partition

open Stats

def held {α : Type} : Option α → Except SearchError α
  | some a => .ok a
  | none => .error .capacity

def candidates? (p : Params) (rows : List Observation) : Option (List Float) :=
  let values := rows.map (·.conditioning)
  let mu := mean values
  let sigma := deviation values
  evenlySpaced? (mu - sigma) (mu + sigma) p.candidateThresholds

def checkedBestCut (p : Params) (wholeSize : Nat) (leastGain : Float) (rows : List Observation) :
    Except SearchError (Option Cut) :=
  if rows.length < 2 then .ok none
  else do
    let parent ← held (Histogram.equalWidth? (rows.map (·.subject)) p.entropyBins)
    let thresholds ← held (candidates? p rows)
    return firstBest? (fun next best => best.gain < next.gain)
      (thresholds.filterMap (cutOn? p wholeSize leastGain parent rows))

def checkedFitRows (p : Params) (rows : List Observation) : Except SearchError FittedRows := do
  match ← held (Fit.ofValues? (rows.map (·.subject)) p) with
  | .ok fit => return ⟨rows.map (·.position), fit⟩
  | .error e => throw (.fit e)

def checkedSplit (p : Params) (subject conditioning : List Float) :
    Except SearchError (Option Split) :=
  match observations? subject conditioning with
  | none => .error .lengthMismatch
  | some rows => do
    match ← checkedBestCut p rows.length (p.gainForCut 1) rows with
    | none => return none
    | some cut =>
      let below ← checkedFitRows p cut.below
      let above ← checkedFitRows p cut.above
      return some ⟨cut.threshold, cut.gain, below, above⟩

def checkedEntropy (p : Params) (segment : Segment) : Except SearchError Float :=
  held (columnEntropy? (segment.rows.map (·.subject)) p.entropyBins)

/-- The entropy of every segment is taken, also of one with too few rows to cut. -/
def checkedHardest (p : Params) (segments : List Segment) : Except SearchError (Option Nat) := do
  let entropies ← segments.mapM (checkedEntropy p)
  return (firstBest? (fun (next best : Float × Nat) => best.1 < next.1) entropies.zipIdx).map (·.2)

def checkedCutSegments (p : Params) (wholeSize : Nat) :
    (cuts done : Nat) → List Segment → Except SearchError (List Segment)
  | 0, _, segments => .ok segments
  | cuts + 1, done, segments => do
    match ← checkedHardest p segments with
    | none => return segments
    | some place =>
      match segments[place]? with
      | none => return segments
      | some segment =>
        match ← checkedBestCut p wholeSize (p.gainForCut (done + 1)) segment.rows with
        | none => return segments
        | some cut =>
          match segment.range.splitAt? cut.threshold with
          | none => throw .emptyRange
          | some (below, above) =>
            checkedCutSegments p wholeSize cuts (done + 1)
              (segments.take place ++ ⟨below, cut.below⟩ :: ⟨above, cut.above⟩ ::
                segments.drop (place + 1))

def checkedFitSegment (p : Params) (segment : Segment) : Except SearchError RefinedBucket := do
  let rows ← checkedFitRows p segment.rows
  return ⟨segment.range, rows⟩

def checkedRefine (p : Params) (subject conditioning : List Float) :
    Except SearchError (Option Refinement) :=
  match observations? subject conditioning with
  | none => .error .lengthMismatch
  | some rows => do
    let segments ← checkedCutSegments p rows.length p.maxCuts 0 [⟨.unbounded, rows⟩]
    if segments.length ≤ 1 then return none
    let buckets ← segments.mapM (checkedFitSegment p)
    return some ⟨buckets⟩

end FairProgram.Partition
