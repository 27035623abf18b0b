import FairProgram.Decimal.Shortest
import FairProgram.Whole

/-!
# Compilation parameters

The thresholds of fitting, partitioning, recursion and printing, and which of them are usable.
-/

namespace FairProgram

/-- `decimalPlaces` is for the population model and `literalPlaces` for the classifier. -/
structure Params where
  informationGain : Float := 0.125
  partitionShare : Float := 0.1
  cutPenalty : Float := 0.33
  maxDepth : Nat := 2
  /-- Step fits have fewer buckets than this. -/
  maxStepBuckets : Nat := 6
  entropyBins : Nat := 25
  candidateThresholds : Nat := 5
  maxCuts : Nat := 5
  decimalPlaces : Nat := 6
  literalPlaces : Nat := 4
  outputOffset : Option Float := some 0.5
  words : ∀ count ∈ [maxDepth, maxStepBuckets, entropyBins, candidateThresholds, maxCuts,
    decimalPlaces, literalPlaces], count ≤ Whole.maxWord := by decide

instance : Inhabited Params := ⟨{}⟩

def maxDecimalPlaces : Nat := 15

inductive ParamsError where
  | informationGain (value : Float)
  | partitionShare (value : Float)
  | cutPenalty (value : Float)
  | maxDepth
  | stepBuckets (value : Nat)
  | entropyBins
  | candidateThresholds
  | decimalPlaces (value : Nat)

def ParamsError.message : ParamsError → String
  | .informationGain value =>
    "information_gain_thresh must not be NaN, got " ++ Decimal.plain value
  | .partitionShare value =>
    "partition_frac_thresh must be in [0, 0.5), got " ++ Decimal.plain value
  | .cutPenalty value => "partition_penalty must be >= 0, got " ++ Decimal.plain value
  | .maxDepth => "max_depth must be >= 1"
  | .stepBuckets value => "max_step_buckets must be >= 2, got " ++ toString value
  | .entropyBins => "entropy_bins must be >= 1"
  | .candidateThresholds => "candidate_thresholds must be >= 1"
  | .decimalPlaces value => "decimal_precision must be in 1..=15, got " ++ toString value

namespace Params

/-- The gain that the `cut`-th cut on a column must reach, counted from one. -/
def gainForCut (p : Params) (cut : Nat) : Float :=
  p.informationGain * (1 + p.cutPenalty * Float.ofNat (cut - 1))

def validate (p : Params) : Except ParamsError Unit :=
  if p.informationGain.isNaN then .error (.informationGain p.informationGain)
  else if ¬(0 ≤ p.partitionShare ∧ p.partitionShare < 0.5) then
    .error (.partitionShare p.partitionShare)
  else if p.cutPenalty.isNaN ∨ p.cutPenalty < 0 then .error (.cutPenalty p.cutPenalty)
  else if p.maxDepth = 0 then .error .maxDepth
  else if p.maxStepBuckets < 2 then .error (.stepBuckets p.maxStepBuckets)
  else if p.entropyBins = 0 then .error .entropyBins
  else if p.candidateThresholds = 0 then .error .candidateThresholds
  else if p.decimalPlaces = 0 ∨ maxDecimalPlaces < p.decimalPlaces then
    .error (.decimalPlaces p.decimalPlaces)
  else .ok ()

/-- The parameters with another depth or other places of literals, where they are given. -/
def revised (p : Params) (maxDepth literalPlaces : Option Whole.Word) : Params :=
  have words : ∀ count ∈ [(maxDepth.map (·.val)).getD p.maxDepth, p.maxStepBuckets, p.entropyBins,
      p.candidateThresholds, p.maxCuts, p.decimalPlaces,
      (literalPlaces.map (·.val)).getD p.literalPlaces], count ≤ Whole.maxWord := by
    have hwords := p.words
    have hgiven (given : Option Whole.Word) {count : Nat} (h : count ≤ Whole.maxWord) :
        (given.map (·.val)).getD count ≤ Whole.maxWord := by
      cases given with
      | none => exact h
      | some word => exact word.property
    simp only [List.forall_mem_cons] at hwords ⊢
    obtain ⟨hdepth, hbuckets, hbins, hcandidates, hcuts, hdecimal, hliteral, hnil⟩ := hwords
    exact ⟨hgiven maxDepth hdepth, hbuckets, hbins, hcandidates, hcuts, hdecimal,
      hgiven literalPlaces hliteral, hnil⟩
  { p with
    maxDepth := (maxDepth.map (·.val)).getD p.maxDepth
    literalPlaces := (literalPlaces.map (·.val)).getD p.literalPlaces
    words := words }

end Params

end FairProgram
