import FairProgram.Fit.Step
import FairProgram.Stats.Distance

/-!
# Marginal fits

One column of values is described by a normal or a step distribution, whichever is nearer to the
sample by Kolmogorov-Smirnov distance.
-/

namespace FairProgram

open Stats

inductive Fit where
  | gaussian (mean deviation : Float)
  | step (fit : StepFit)

inductive FitError where
  | empty
  | nonFinite (value : Float) (row : Nat)

def FitError.message : FitError → String
  | .empty => "cannot fit an empty column"
  | .nonFinite value row => "non-finite value " ++ Decimal.plain value ++ " at row " ++ toString row

structure ScoredFit where
  fit : Fit
  distance : Float

namespace Fit

def kind : Fit → String
  | .gaussian _ _ => "gaussian"
  | .step _ => "step"

def mean : Fit → Float
  | .gaussian mean _ => mean
  | .step fit => fit.mean

/-- The distance of the histogram of `extra + 1` equal-width bins from the sample. -/
def stepDistance (values : List Float) (extra : Nat) : Float :=
  let histogram := Histogram.equalWidth values (extra + 1)
  ksDistance values (stepCdf (Bucket.ofEdges histogram.edges (histogram.shares values.length)))

/-- The step fit of the least distance, the one with fewer buckets where distances are equal. -/
def bestStep (values : List Float) (p : Params) : ScoredFit :=
  let candidate (extra : Nat) : Nat × Float := (extra, stepDistance values extra)
  let (extra, distance) := bestFrom (fun next best => next.2 < best.2) (candidate 0)
    ((List.range (p.maxStepBuckets - 2)).map fun i => candidate (i + 1))
  ⟨.step (StepFit.ofValues values extra p.decimalPlaces), distance⟩

/-- The normal fit by maximum likelihood. Values without spread have none. -/
def gaussian? (values : List Float) : Option ScoredFit :=
  let mu := Stats.mean values
  let sigma := deviation values
  if 0 < sigma then some ⟨.gaussian mu sigma, ksDistance values (normalCdf mu sigma)⟩ else none

/-- The first value that is not finite, with its row. -/
def firstNonFinite? (values : List Float) : Option (Float × Nat) :=
  values.zipIdx.find? fun (value, _) => !value.isFinite

/-- The nearer of the normal and the best step fit, the normal one where they are equally near. -/
def scored (values : List Float) (p : Params) : Except FitError ScoredFit :=
  if values.isEmpty then .error .empty
  else match firstNonFinite? values with
    | some (value, row) => .error (.nonFinite value row)
    | none =>
      let step := bestStep values p
      match gaussian? values with
      | some normal => .ok (if normal.distance ≤ step.distance then normal else step)
      | none => .ok step

def ofValues (values : List Float) (p : Params) : Except FitError Fit :=
  (scored values p).map (·.fit)

def stepDistance? (values : List Float) (extra : Nat) : Option Float := do
  let histogram ← Histogram.equalWidth? values (extra + 1)
  return ksDistance values (stepCdf (Bucket.ofEdges histogram.edges (histogram.shares values.length)))

def stepCandidate? (values : List Float) (extra : Nat) : Option (Nat × Float) := do
  return (extra, ← stepDistance? values extra)

def bestStep? (values : List Float) (p : Params) : Option ScoredFit := do
  let first ← stepCandidate? values 0
  let others ← (List.range (p.maxStepBuckets - 2)).mapM fun i => stepCandidate? values (i + 1)
  let (extra, distance) := bestFrom (fun next best => next.2 < best.2) first others
  return ⟨.step (StepFit.ofValues values extra p.decimalPlaces), distance⟩

/-- The nearer fit as it is found, where every histogram that is tried can be held. -/
def scored? (values : List Float) (p : Params) : Option (Except FitError ScoredFit) :=
  if values.isEmpty then some (.error .empty)
  else match firstNonFinite? values with
    | some (value, row) => some (.error (.nonFinite value row))
    | none => do
      let step ← bestStep? values p
      match gaussian? values with
      | some normal => return .ok (if normal.distance ≤ step.distance then normal else step)
      | none => return .ok step

def ofValues? (values : List Float) (p : Params) : Option (Except FitError Fit) :=
  (scored? values p).map fun scored => scored.map (·.fit)

theorem firstNonFinite?_eq_none_iff {values : List Float} :
    firstNonFinite? values = none ↔ ∀ v ∈ values, v.isFinite = true := by
  simp only [firstNonFinite?, List.find?_eq_none, Bool.not_eq_true', Bool.not_eq_false]
  constructor
  · intro h v hv
    obtain ⟨row, hrow⟩ := List.mem_iff_getElem?.mp hv
    exact h (v, row) (List.mk_mem_zipIdx_iff_getElem?.mpr hrow)
  · rintro h ⟨v, row⟩ hv
    exact h v (List.mem_of_getElem? (List.mk_mem_zipIdx_iff_getElem?.mp hv))

theorem firstNonFinite?_ok {values : List Float} {v : Float} {row : Nat}
    (h : firstNonFinite? values = some (v, row)) :
    values[row]? = some v ∧ v.isFinite = false ∧
      ∀ row' v', values[row']? = some v' → v'.isFinite = false → row ≤ row' := by
  obtain ⟨hv, i, hi, hfound, hbefore⟩ := List.find?_eq_some_iff_getElem.mp h
  rw [List.getElem_zipIdx] at hfound
  cases hfound
  rw [List.length_zipIdx] at hi
  simp only [Bool.not_eq_true', Nat.zero_add] at hv ⊢
  refine ⟨List.getElem?_eq_getElem hi, hv, fun row' v' hrow' hv' => Nat.le_of_not_lt fun hlt => ?_⟩
  have hfinite := hbefore row' hlt
  obtain ⟨hrow', rfl⟩ := List.getElem?_eq_some_iff.mp hrow'
  rw [List.getElem_zipIdx] at hfinite
  simp [hv'] at hfinite

theorem exists_ofValues {values : List Float} (p : Params) (hne : values ≠ [])
    (hf : ∀ v ∈ values, v.isFinite = true) : ∃ fit, ofValues values p = .ok fit := by
  have he : values.isEmpty = false := List.isEmpty_eq_false_iff.mpr hne
  simp only [ofValues, scored, he, Bool.false_eq_true, if_false,
    firstNonFinite?_eq_none_iff.mpr hf]
  split <;> exact ⟨_, rfl⟩

end Fit

end FairProgram
