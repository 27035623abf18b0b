import FairProgram.Fit
import FairProgram.Proofs.Selection
import FairProgram.Proofs.Stats.Distance
import Mathlib

/-!
# The choice of a fit

Finite values get the first best of their candidates (`Fit.scored_isFirstBest`): of the step fits
the one with the fewest buckets among the nearest, and the normal fit where no step fit is nearer.
Since no distance is NaN, nearness orders the candidates.
-/

namespace FairProgram

open Stats Double

variable {values : List Float} {p : Params}

-- ---------------------------------------------------------------------------
-- Candidates
-- ---------------------------------------------------------------------------

def Fit.normalDistance (values : List Float) : Float :=
  ksDistance values (normalCdf (Stats.mean values) (deviation values))

/-- The distance of the values' histogram of equal-width buckets. -/
def Fit.bucketDistance (values : List Float) (buckets : Nat) : Float :=
  let histogram := Histogram.equalWidth values buckets
  ksDistance values (stepCdf (Bucket.ofEdges histogram.edges (histogram.shares values.length)))

def Params.Allows (p : Params) (buckets : Nat) : Prop :=
  1 ≤ buckets ∧ buckets ≤ max p.maxStepBuckets 2 - 1

/-- The step distribution with the edges and the quantized probabilities of the values' histogram of
equal-width buckets. -/
def StepFit.IsOfHistogram (step : StepFit) (values : List Float) (buckets places : Nat) : Prop :=
  let histogram := Histogram.equalWidth values buckets
  ofProbabilities? histogram.edges (histogram.shares values.length) places = some step

/-- The scored fits that one is chosen from: the normal one, where the values have a positive
deviation, and a step fit for every number of buckets allowed. -/
inductive ScoredFit.IsCandidate (values : List Float) (p : Params) : ScoredFit → Prop
  | gaussian (h : 0 < deviation values) : IsCandidate values p
      ⟨.gaussian (Stats.mean values) (deviation values), Fit.normalDistance values⟩
  | step {buckets : Nat} {step : StepFit} (hallows : p.Allows buckets)
      (hstep : step.IsOfHistogram values buckets p.decimalPlaces) :
      IsCandidate values p ⟨.step step, Fit.bucketDistance values buckets⟩

/-- The first best of the candidates. In `least` both distances are numbers, since NaN is not `≤`
anything. -/
structure ScoredFit.IsFirstBest (values : List Float) (p : Params) (scored : ScoredFit) : Prop where
  candidate : scored.IsCandidate values p
  least : ∀ other : ScoredFit, other.IsCandidate values p → scored.distance ≤ other.distance
  gaussian_iff : (∃ mean deviation, scored.fit = .gaussian mean deviation) ↔
    0 < deviation values ∧
      ∀ buckets, p.Allows buckets → Fit.normalDistance values ≤ Fit.bucketDistance values buckets
  fewest : ∀ step, scored.fit = .step step → ∃ buckets, p.Allows buckets ∧
    step.IsOfHistogram values buckets p.decimalPlaces ∧
    scored.distance = Fit.bucketDistance values buckets ∧
    (∀ other, p.Allows other →
      Fit.bucketDistance values buckets ≤ Fit.bucketDistance values other) ∧
    ∀ fewer, 1 ≤ fewer → fewer < buckets →
      Fit.bucketDistance values buckets < Fit.bucketDistance values fewer

theorem StepFit.ofValues_isOfHistogram (values : List Float) (extra places : Nat) :
    (ofValues values extra places).IsOfHistogram values (extra + 1) places := by
  refine dif_pos ⟨List.ne_nil_of_length_pos ?_, ?_⟩ <;> simp

theorem Params.allows_succ_iff {extra : Nat} :
    p.Allows (extra + 1) ↔ extra < max p.maxStepBuckets 2 - 1 := by
  unfold Allows
  omega

namespace Fit

theorem isNaN_normalDistance (values : List Float) : (normalDistance values).isNaN = false :=
  isNaN_of_nonneg (ksDistance_nonneg _ _)

theorem isNaN_bucketDistance (values : List Float) (buckets : Nat) :
    (bucketDistance values buckets).isNaN = false :=
  isNaN_of_nonneg (ksDistance_nonneg _ _)

-- ---------------------------------------------------------------------------
-- The choice among step fits
-- ---------------------------------------------------------------------------

/-- The best step fit has the fewest buckets among the nearest. -/
theorem bestStep_eq (values : List Float) (p : Params) : ∃ extra, p.Allows (extra + 1) ∧
    bestStep values p = ⟨.step (StepFit.ofValues values extra p.decimalPlaces),
      bucketDistance values (extra + 1)⟩ ∧
    (∀ other, p.Allows (other + 1) →
      bucketDistance values (extra + 1) ≤ bucketDistance values (other + 1)) ∧
    ∀ fewer < extra, bucketDistance values (extra + 1) < bucketDistance values (fewer + 1) := by
  let candidate (extra : Nat) : Nat × Float := (extra, bucketDistance values (extra + 1))
  -- Lesser distances rank higher.
  let nearness (c : Nat × Float) := OrderDual.toDual (rank c.2.toModel.unpack)
  set best := bestFrom (fun next best : Nat × Float => next.2 < best.2) (candidate 0)
    ((List.range (p.maxStepBuckets - 2)).map fun i => candidate (i + 1)) with hbest
  have heq : bestStep values p =
      ⟨.step (StepFit.ofValues values best.1 p.decimalPlaces), best.2⟩ := rfl
  have hcandidates : candidate 0 :: (List.range (p.maxStepBuckets - 2)).map
      (fun i => candidate (i + 1)) = (List.range (p.maxStepBuckets - 2 + 1)).map candidate := by
    rw [List.range_succ_eq_map, List.map_cons, List.map_map]
    rfl
  have hnumber : ∀ c ∈ (List.range (p.maxStepBuckets - 2 + 1)).map candidate,
      c.2.isNaN = false := fun c hc => by
    obtain ⟨i, -, rfl⟩ := List.mem_map.mp hc
    exact isNaN_bucketDistance values (i + 1)
  have hfirst : FirstGreatest nearness ((List.range (p.maxStepBuckets - 2 + 1)).map candidate)
      best := by
    rw [hbest, ← hcandidates]
    refine bestFrom_firstGreatest fun next hnext best hbest => ?_
    rw [hcandidates] at hnext hbest
    rw [decide_eq_true_eq, lt_iff]
    exact ⟨fun h => h.2.2, fun h => ⟨hnumber next hnext, hnumber best hbest, h⟩⟩
  obtain ⟨extra, hextra, hat, hfewer, hother⟩ := hfirst.of_range
  have hle (i : Nat) : p.Allows (i + 1) ↔ i < p.maxStepBuckets - 2 + 1 := by
    rw [Params.allows_succ_iff]
    omega
  rw [heq, ← hat]
  rw [← hat] at hfewer hother
  refine ⟨extra, (hle extra).mpr hextra, rfl, fun other hallows => ?_, fun fewer hlt => ?_⟩
  · exact le_iff.mpr ⟨isNaN_bucketDistance _ _, isNaN_bucketDistance _ _,
      hother other ((hle other).mp hallows)⟩
  · exact lt_iff.mpr ⟨isNaN_bucketDistance _ _, isNaN_bucketDistance _ _, hfewer fewer hlt⟩

-- ---------------------------------------------------------------------------
-- The choice between the normal and the step fit
-- ---------------------------------------------------------------------------

/-- The normal fit is chosen if there is one and it is as near as the step fit. -/
theorem scored_eq (hne : values ≠ []) (hf : ∀ v ∈ values, v.isFinite = true) :
    scored values p = .ok (if 0 < deviation values ∧
        normalDistance values ≤ (bestStep values p).distance
      then ⟨.gaussian (Stats.mean values) (deviation values), normalDistance values⟩
      else bestStep values p) := by
  have hempty : values.isEmpty = false := List.isEmpty_eq_false_iff.mpr hne
  simp only [scored, hempty, Bool.false_eq_true, if_false, firstNonFinite?_eq_none_iff.mpr hf,
    gaussian?]
  by_cases hpos : 0 < deviation values
  · simp only [hpos, if_true, true_and, normalDistance]
  · simp only [hpos, if_false, false_and]

theorem ofValues_eq (hne : values ≠ []) (hf : ∀ v ∈ values, v.isFinite = true) :
    ofValues values p = .ok (if 0 < deviation values ∧
        normalDistance values ≤ (bestStep values p).distance
      then .gaussian (Stats.mean values) (deviation values) else (bestStep values p).fit) := by
  rw [ofValues, scored_eq hne hf]
  simp only [Except.map, apply_ite ScoredFit.fit]

theorem scored_isFirstBest (hne : values ≠ []) (hf : ∀ v ∈ values, v.isFinite = true) :
    ∃ s, scored values p = .ok s ∧ s.IsFirstBest values p := by
  obtain ⟨extra, hallows, hbest, hother, hfewer⟩ := bestStep_eq values p
  have hstep := StepFit.ofValues_isOfHistogram values extra p.decimalPlaces
  -- Numbers of buckets are successors.
  have hother' (buckets : Nat) (h : p.Allows buckets) :
      bucketDistance values (extra + 1) ≤ bucketDistance values buckets := by
    obtain ⟨other, rfl⟩ := Nat.exists_eq_add_one.mpr h.1
    exact hother other h
  refine ⟨_, scored_eq hne hf, ?_⟩
  rw [hbest]
  split
  · rename_i hchosen
    obtain ⟨hpos, hnearest⟩ := hchosen
    have hall (buckets : Nat) (h : p.Allows buckets) :
        normalDistance values ≤ bucketDistance values buckets :=
      le_trans hnearest (hother' buckets h)
    exact {
      candidate := .gaussian hpos
      least := fun other hcandidate => by
        cases hcandidate with
        | gaussian => exact le_self (isNaN_normalDistance values)
        | step hallows => exact hall _ hallows
      gaussian_iff := ⟨fun _ => ⟨hpos, hall⟩, fun _ => ⟨_, _, rfl⟩⟩
      fewest := nofun }
  · rename_i hnot
    exact {
      candidate := .step hallows hstep
      least := fun other hcandidate => by
        cases hcandidate with
        | gaussian hpos =>
          exact le_of_lt (lt_of_not_le (isNaN_normalDistance values)
            (isNaN_bucketDistance values _) fun hle => hnot ⟨hpos, hle⟩)
        | step hallows => exact hother' _ hallows
      gaussian_iff := ⟨nofun, fun h => absurd ⟨h.1, h.2 _ hallows⟩ hnot⟩
      fewest := fun step heq => by
        cases heq
        refine ⟨extra + 1, hallows, hstep, rfl, hother', fun fewer hpos hlt => ?_⟩
        obtain ⟨fewer, rfl⟩ := Nat.exists_eq_add_one.mpr hpos
        exact hfewer fewer (Nat.lt_of_succ_lt_succ hlt) }

theorem scored_isFirstBest_uneven : ([1, 2, 4.5] : List Float) ≠ [] ∧
    (∀ v ∈ ([1, 2, 4.5] : List Float), v.isFinite = true) ∧
    ∃ s, scored [1, 2, 4.5] {} = .ok s ∧ s.IsFirstBest [1, 2, 4.5] {} :=
  have hf : ∀ v ∈ ([1, 2, 4.5] : List Float), v.isFinite = true := by decide +kernel
  ⟨List.cons_ne_nil _ _, hf, scored_isFirstBest (List.cons_ne_nil _ _) hf⟩

end Fit

end FairProgram
