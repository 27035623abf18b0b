import FairProgram.Proofs.Fit.Choice
import FairProgram.Proofs.Stats.Edges
import Mathlib

/-!
# Proper fits

The fit of finite values is proper unless their moments or the width of their span leave the doubles
(`Fit.isProper_ofValues_iff`). Values whose sum leaves the doubles have a normal fit of infinite
mean, since its distance from them is zero (`Fit.ofValues_of_mean_infinite`).
-/

namespace FairProgram

open Stats Double

/-- A normal fit has a finite mean and a finite, positive deviation, and a step fit has finite
edges. -/
def Fit.IsProper : Fit → Prop
  | .gaussian mean deviation => mean.isFinite = true ∧ deviation.isFinite = true ∧ 0 < deviation
  | .step fit => ∀ edge ∈ fit.edges, edge.isFinite = true

variable {values : List Float} {p : Params}

-- ---------------------------------------------------------------------------
-- Step fits
-- ---------------------------------------------------------------------------

theorem StepFit.edges_ofValues (values : List Float) (extra places : Nat) :
    (ofValues values extra places).edges =
      evenlySpaced (Histogram.span values).1 (Histogram.span values).2 (extra + 2) :=
  rfl

theorem Fit.isProper_step_iff (hne : values ≠ []) (hf : ∀ v ∈ values, v.isFinite = true)
    {extra : Nat} (hextra : extra < 2 ^ 50) (places : Nat) :
    (Fit.step (StepFit.ofValues values extra places)).IsProper ↔
      (width values).isFinite = true := by
  obtain ⟨hlow, hhigh, hle, -⟩ := span_bounds hne hf
  rw [IsProper, StepFit.edges_ofValues]
  exact isFinite_evenlySpaced_iff hlow hhigh hle (Nat.succ_pos extra) hextra

-- ---------------------------------------------------------------------------
-- The choice between fits
-- ---------------------------------------------------------------------------

namespace Fit

theorem isProper_ofValues_iff (hne : values ≠ []) (hf : ∀ v ∈ values, v.isFinite = true)
    (hfew : p.maxStepBuckets ≤ 2 ^ 50) : ∃ fit, ofValues values p = .ok fit ∧
      (∀ mean deviation, fit = .gaussian mean deviation → 0 < deviation) ∧
      (fit.IsProper ↔ (deviation values).isFinite = true ∨
        (∃ step, fit = .step step) ∧ (width values).isFinite = true) := by
  refine ⟨_, ofValues_eq hne hf, ?_⟩
  obtain ⟨extra, hallows, hbest, -⟩ := bestStep_eq values p
  have hextra := Params.allows_succ_iff.mp hallows
  split
  · rename_i hchosen
    refine ⟨fun _ _ heq => (Fit.gaussian.inj heq).2 ▸ hchosen.1, ?_⟩
    constructor
    · exact fun hproper => .inl hproper.2.1
    · rintro (hdeviation | ⟨⟨step, hstep⟩, -⟩)
      · exact ⟨isFinite_mean hne hdeviation, hdeviation, hchosen.1⟩
      · cases hstep
  · obtain ⟨-, -, -, hwidth⟩ := span_bounds hne hf
    rw [hbest, isProper_step_iff hne hf (by omega)]
    exact ⟨nofun, fun h => .inr ⟨⟨_, rfl⟩, h⟩, fun h => h.elim hwidth And.right⟩

/-- Where the mean overflows, the normal fit is chosen: of a distribution function that is not a
number no gap to the values is left. -/
theorem ofValues_of_mean_infinite (hne : values ≠ []) (hrows : values.length ≤ Whole.maxWord)
    (hf : ∀ v ∈ values, v.isFinite = true) (hmean : (Stats.mean values).isFinite = false)
    (p : Params) :
    ofValues values p = .ok (.gaussian (Stats.mean values) (deviation values)) := by
  have hinfinite := deviation_of_mean_infinite hne hrows hf hmean
  obtain ⟨extra, -, hbest, -⟩ := bestStep_eq values p
  have hnearest : normalDistance values ≤ (bestStep values p).distance := by
    rw [normalDistance, hbest,
      ksDistance_of_isNaN (isNaN_normalCdf hmean (isFinite_of_infinity hinfinite))]
    exact ksDistance_nonneg _ _
  rw [ofValues_eq hne hf, if_pos ⟨pos_of_infinity hinfinite, hnearest⟩]

end Fit

end FairProgram
