import FairProgram.Proofs.Fit.Choice
import FairProgram.Proofs.Stats.Centred
import FairProgram.Proofs.Stats.Normal
import Mathlib

/-!
# Fits of equal values

How many buckets fit best does not depend on how many equal values there are
(`Fit.bucketDistance_replicate`). No number of buckets comes nearer than a half, and neither does a
normal distribution, so that a value in the middle of the bucket around it gets that single bucket
(`Fit.ofValues_replicate`). A value that rounding puts off the middle can get more buckets
(`Fit.exists_constant_threeBuckets`).
-/

namespace FairProgram

open Stats Double Scalar Whole

variable {v : Float} {rows buckets : Nat} {p : Params} {fit : Fit}

theorem Params.decimalPlaces_le (h : p.validate = .ok ()) : p.decimalPlaces ≤ maxDecimalPlaces := by
  unfold validate at h
  split_ifs at h
  omega

/-- One bucket from a half below to a half above a value, with all units in it. -/
def Fit.IsSingleBucket (v : Float) (p : Params) (fit : Fit) : Prop :=
  ∃ step, fit = .step step ∧ step.edges = [v - 0.5, v + 0.5] ∧
    step.units = [powTen p.decimalPlaces] ∧ step.places = p.decimalPlaces

namespace Fit

-- ---------------------------------------------------------------------------
-- Step distances
-- ---------------------------------------------------------------------------

theorem bucketDistance_replicate (hv : v.isFinite = true) (hrows : 0 < rows)
    (hword : rows ≤ Whole.maxWord) (hpos : 0 < buckets) (hbuckets : buckets ≤ Whole.maxWord) :
    bucketDistance (List.replicate rows v) buckets =
      greatest (1 - cdfAround v buckets) (cdfAround v buckets) := by
  obtain ⟨hedges, hshares⟩ := equalWidth_replicate hv hrows hword buckets
  rw [bucketDistance, List.length_replicate, hedges, hshares]
  exact ksDistance_replicate hrows hword (isFinite_cdfAround hv hpos hbuckets)

/-- The number of copies makes no difference. -/
theorem bucketDistance_copies (hv : v.isFinite = true) (hrows : 0 < rows)
    (hword : rows ≤ Whole.maxWord) (hpos : 0 < buckets) (hbuckets : buckets ≤ Whole.maxWord) :
    bucketDistance (List.replicate rows v) buckets = bucketDistance [v] buckets := by
  rw [bucketDistance_replicate hv hrows hword hpos hbuckets]
  exact (bucketDistance_replicate hv Nat.one_pos (by decide) hpos hbuckets).symm

theorem half_le_bucketDistance (hv : v.isFinite = true) (hpos : 0 < buckets)
    (hbuckets : buckets ≤ Whole.maxWord) : (bucketDistance [v] buckets).isFinite = true ∧
      value (bucketDistance [v] buckets) =
        max (nearest (1 - value (cdfAround v buckets))) (value (cdfAround v buckets)) ∧
      1 / 2 ≤ value (bucketDistance [v] buckets) := by
  have hcdf := isFinite_cdfAround hv hpos hbuckets
  have hdistance := bucketDistance_replicate hv Nat.one_pos (by decide) hpos hbuckets
  rw [show [v] = List.replicate 1 v from rfl, hdistance]
  exact half_le_greatest hcdf

theorem bucketDistance_of_centred (hv : v.isFinite = true) (h : Centred v) :
    bucketDistance [v] 1 = 0.5 := by
  have hdistance := bucketDistance_replicate hv Nat.one_pos (by decide) Nat.one_pos (by decide)
  rw [show [v] = List.replicate 1 v from rfl, hdistance, cdfAround_of_centred hv h]
  decide +kernel

theorem bucketDistance_one_lt (hv : v.isFinite = true) (hsmall : |value v| ≤ 2 ^ 20) :
    value (bucketDistance [v] 1) < 1 / 2 + gap := by
  obtain ⟨-, hvalue, -⟩ := half_le_bucketDistance hv Nat.one_pos (by decide)
  obtain ⟨hge, hle⟩ := abs_le.mp (cdfAround_near hv hsmall)
  have hnear : (2 : ℚ) ^ (-32 : ℤ) + 2 ^ (-40 : ℤ) ≤ 3 * 2 ^ (-33 : ℤ) := by norm_num
  have hgap : (1 / 2 + 3 * 2 ^ (-33 : ℤ) : ℚ) < 1 / 2 + gap := by norm_num [gap]
  -- A double between the distance and the gap.
  have hdouble : nearest (1 / 2 + 3 * 2 ^ (-33 : ℤ)) = 1 / 2 + 3 * 2 ^ (-33 : ℤ) := by
    have := nearest_mul_zpow (m := 2 ^ 32 + 3) (e := -33) (by norm_num) (by norm_num)
    rwa [show ((2 ^ 32 + 3 : ℤ) : ℚ) * 2 ^ (-33 : ℤ) = 1 / 2 + 3 * 2 ^ (-33 : ℤ) by norm_num]
      at this
  have hrest : nearest (1 - value (cdfAround v 1)) ≤ 1 / 2 + 3 * 2 ^ (-33 : ℤ) :=
    hdouble ▸ nearest_mono (by linarith)
  rw [hvalue]
  exact (max_le hrest (by linarith)).trans_lt hgap

-- ---------------------------------------------------------------------------
-- Normal distances
-- ---------------------------------------------------------------------------

/-- Where rounding gives equal values a deviation, the normal distribution is further from them than
the gap. -/
theorem normalDistance_away (hexp : ExpBounded) (hv : v.isFinite = true) (hrows : 0 < rows)
    (hword : rows ≤ Whole.maxWord) (hsmall : |value v| ≤ 2 ^ (54 : ℤ))
    (hpos : 0 < deviation (List.replicate rows v)) :
    (normalDistance (List.replicate rows v)).isFinite = true ∧
      1 / 2 + gap ≤ value (normalDistance (List.replicate rows v)) := by
  set values := List.replicate rows v with hvalues
  have hmem : v ∈ values := List.mem_replicate.mpr ⟨hrows.ne', rfl⟩
  have hall {u : Float} (hu : u ∈ values) : u = v := (List.mem_replicate.mp hu).2
  have hne : values ≠ [] := List.ne_nil_of_mem hmem
  have hdeviation : (deviation values).isFinite = true := by
    refine isFinite_deviation hne ?_ (fun u hu => hall hu ▸ hv) fun u hu => ?_
    · rwa [hvalues, List.length_replicate]
    · rw [hall hu]
      exact hsmall.trans (zpow_le_zpow_right₀ one_le_two (by norm_num))
  have hdistance := (isFinite_of_mul (isFinite_sub_mean hdeviation v hmem)).1
  have hscale : 0 < deviation values * 1.4142135623730951 := by
    have hone : (1 : Float) ≤ 1.4142135623730951 := by decide +kernel
    have hfactor : (1.4142135623730951 : Float).isFinite = true := by decide +kernel
    have hself := mul_one_eq_self (isNaN_of_isFinite hdeviation)
    have hle := mul_le (le_of_lt hpos) (le_of_lt pos_one) (le_self (isNaN_of_isFinite hdeviation))
      hone (by rw [hself]; exact isNaN_of_isFinite hdeviation)
      (mul_rounds hdeviation hfactor).isNaN
    rw [hself] at hle
    exact lt_of_lt_of_le hpos hle
  obtain ⟨hcdf, haway⟩ := normalCdf_away hexp (isNaN_div_pos hdistance hscale)
  rw [normalDistance, hvalues, ksDistance_replicate hrows hword hcdf]
  obtain ⟨hf, hvalue, -⟩ := half_le_greatest hcdf
  refine ⟨hf, ?_⟩
  rw [hvalue, le_max_iff]
  obtain hle | hle := le_abs.mp haway
  · exact .inr (by linarith)
  · have hdouble : nearest (1 / 2 + gap) = 1 / 2 + gap := by
      have := nearest_mul_zpow (m := 2 ^ 30 + 1) (e := -31) (by norm_num) (by norm_num)
      rwa [show ((2 ^ 30 + 1 : ℤ) : ℚ) * 2 ^ (-31 : ℤ) = 1 / 2 + gap by norm_num [gap]] at this
    exact .inl (hdouble ▸ nearest_mono (by linarith))

-- ---------------------------------------------------------------------------
-- The fit of equal values
-- ---------------------------------------------------------------------------

theorem quantize_singleton (probability : Float) (places : Nat) :
    quantize [probability] places = [powTen places] := by
  simp [quantize, wordSum]

theorem isSingleBucket_ofValues (hv : v.isFinite = true) (hrows : 0 < rows)
    (hword : rows ≤ Whole.maxWord) (hp : p.validate = .ok ()) : IsSingleBucket v p
      (.step (StepFit.ofValues (List.replicate rows v) 0 p.decimalPlaces)) := by
  have hplaces : min p.decimalPlaces maxDecimalPlaces = p.decimalPlaces :=
    min_eq_left (Params.decimalPlaces_le hp)
  obtain ⟨hedges, -⟩ := equalWidth_replicate hv hrows hword 1
  refine ⟨_, rfl, hedges.trans (edgesAround_one hv), ?_, hplaces⟩
  set histogram := Histogram.equalWidth (List.replicate rows v) 1
  obtain ⟨share, hshare⟩ : ∃ share, histogram.shares (List.replicate rows v).length = [share] :=
    List.length_eq_one_iff.mp (by simp [histogram])
  have hunits : (StepFit.ofValues (List.replicate rows v) 0 p.decimalPlaces).units =
      quantize (histogram.shares (List.replicate rows v).length)
        (min p.decimalPlaces maxDecimalPlaces) := rfl
  rw [hunits, hshare, hplaces, quantize_singleton]

/-- The fit of equal values is the single bucket if and only if no number of buckets comes nearer
than one and no normal distribution comes as near. -/
theorem isSingleBucket_iff (hv : v.isFinite = true) (hrows : 0 < rows)
    (hword : rows ≤ Whole.maxWord) (hp : p.validate = .ok ())
    (hbuckets : p.maxStepBuckets ≤ Whole.maxWord) :
    ∃ fit, ofValues (List.replicate rows v) p = .ok fit ∧
      (fit.IsSingleBucket v p ↔
        (∀ buckets, p.Allows buckets → bucketDistance [v] 1 ≤ bucketDistance [v] buckets) ∧
          ¬(0 < deviation (List.replicate rows v) ∧
            normalDistance (List.replicate rows v) ≤ bucketDistance [v] 1)) ∧
      ((∃ mean deviation, fit = .gaussian mean deviation) →
        0 < deviation (List.replicate rows v) ∧
          normalDistance (List.replicate rows v) ≤ bucketDistance [v] 1) := by
  set values := List.replicate rows v with hvalues
  have hne : values ≠ [] := List.ne_nil_of_mem (List.mem_replicate.mpr ⟨hrows.ne', rfl⟩)
  have hf : ∀ u ∈ values, u.isFinite = true := fun u hu => (List.mem_replicate.mp hu).2 ▸ hv
  have hcopies (buckets : Nat) (h : p.Allows buckets) :
      bucketDistance values buckets = bucketDistance [v] buckets :=
    bucketDistance_copies hv hrows hword h.1 (by unfold Params.Allows at h; omega)
  have hone : p.Allows 1 := by unfold Params.Allows; omega
  obtain ⟨extra, hallows, hbest, hother, hfewer⟩ := bestStep_eq values p
  rw [hcopies _ hallows] at hbest
  refine ⟨_, ofValues_eq hne hf, ?_⟩
  rw [hbest]
  have hnearest : bucketDistance [v] (extra + 1) ≤ bucketDistance [v] 1 := by
    rw [← hcopies _ hallows, ← hcopies _ hone]
    exact hother 0 hone
  split
  · rename_i hchosen
    have hnormal : 0 < deviation values ∧ normalDistance values ≤ bucketDistance [v] 1 :=
      ⟨hchosen.1, le_trans hchosen.2 hnearest⟩
    refine ⟨⟨?_, fun h => absurd hnormal h.2⟩, fun _ => hnormal⟩
    rintro ⟨step, hstep, -⟩
    cases hstep
  · rename_i hnot
    refine ⟨⟨?_, ?_⟩, nofun⟩
    · rintro ⟨step, hstep, hedges, -⟩
      cases hstep
      have hlength : extra + 1 + 1 = 2 :=
        (Histogram.length_edges_equalWidth values (extra + 1)).symm.trans
          (congrArg List.length hedges)
      obtain rfl : extra = 0 := by omega
      refine ⟨fun buckets h => ?_, hnot⟩
      obtain ⟨other, rfl⟩ := Nat.exists_eq_add_one.mpr h.1
      rw [← hcopies _ hone, ← hcopies _ h]
      exact hother other h
    · rintro ⟨hleast, -⟩
      have hextra : extra = 0 := by
        by_contra hne
        have hlt := hfewer 0 (Nat.pos_of_ne_zero hne)
        rw [hcopies _ hallows, hcopies _ hone] at hlt
        exact not_le_of_lt hlt (hleast _ hallows)
      subst hextra
      exact isSingleBucket_ofValues hv hrows hword hp

/-- Equal values in the middle of the bucket around them get that single bucket, whether rounding
gives them a deviation or not, and values up to `2 ^ 20` get no normal fit. All others get the
single bucket exactly where nothing else comes nearer. -/
theorem ofValues_replicate (hv : v.isFinite = true) (hrows : 0 < rows)
    (hword : rows ≤ Whole.maxWord) (hp : p.validate = .ok ())
    (hbuckets : p.maxStepBuckets ≤ Whole.maxWord)
    (hexp : 0 < deviation (List.replicate rows v) → ExpBounded) :
    ∃ fit, ofValues (List.replicate rows v) p = .ok fit ∧
      (Centred v → fit.IsSingleBucket v p) ∧
      (|value v| ≤ 2 ^ 20 → ∃ step, fit = .step step) ∧
      (fit.IsSingleBucket v p ↔
        (∀ buckets, p.Allows buckets → bucketDistance [v] 1 ≤ bucketDistance [v] buckets) ∧
          ¬(0 < deviation (List.replicate rows v) ∧
            normalDistance (List.replicate rows v) ≤ bucketDistance [v] 1)) := by
  obtain ⟨fit, hfit, hsingle, hnormal⟩ := isSingleBucket_iff hv hrows hword hp hbuckets
  obtain ⟨hone, -, hhalf⟩ := half_le_bucketDistance hv Nat.one_pos (by decide)
  -- No normal distribution comes within the gap.
  have hfar (hsmall : |value v| ≤ 2 ^ (54 : ℤ))
      (hnear : value (bucketDistance [v] 1) < 1 / 2 + gap) :
      ¬(0 < deviation (List.replicate rows v) ∧
        normalDistance (List.replicate rows v) ≤ bucketDistance [v] 1) := by
    rintro ⟨hpos, hle⟩
    obtain ⟨hf, haway⟩ := normalDistance_away (hexp hpos) hv hrows hword hsmall hpos
    rw [le_iff_value hf hone] at hle
    linarith
  refine ⟨fit, hfit, fun hcentred => ?_, fun hsmall => ?_, hsingle⟩
  · have hdistance := bucketDistance_of_centred hv hcentred
    refine hsingle.mpr ⟨fun buckets h => ?_, hfar (hcentred.small hv).le ?_⟩
    · obtain ⟨hf, -, hle⟩ := half_le_bucketDistance hv h.1
        (show buckets ≤ Whole.maxWord by unfold Params.Allows at h; omega)
      rw [hdistance, le_iff_value isFinite_half hf, value_half_eq]
      exact hle
    · rw [hdistance, value_half_eq]
      norm_num [gap]
  · cases fit with
    | step step => exact ⟨step, rfl⟩
    | gaussian mean deviation =>
      have hle : (2 : ℚ) ^ 20 ≤ 2 ^ (54 : ℤ) := by norm_num
      exact absurd (hnormal ⟨mean, deviation, rfl⟩)
        (hfar (hsmall.trans hle) (bucketDistance_one_lt hv hsmall))

theorem ofValues_replicate_fours : (4 : Float).isFinite = true ∧ 20 ≤ Whole.maxWord ∧
    ({} : Params).validate = .ok () ∧ ({} : Params).maxStepBuckets ≤ Whole.maxWord ∧
    (0 < deviation (List.replicate 20 4) → ExpBounded) ∧ Centred 4 ∧
    ∃ fit, ofValues (List.replicate 20 4) {} = .ok fit ∧ fit.IsSingleBucket 4 {} := by
  have hv : (4 : Float).isFinite = true := by decide +kernel
  have hnone : ¬ 0 < deviation (List.replicate 20 4) := by decide +kernel
  have hvalue : value 4 = (8 : ℤ) * 2 ^ (-1 : ℤ) :=
    (value_ofNat (n := 4) (by norm_num)).2.trans (by norm_num)
  have hcentred : Centred 4 := .of_halves hv hvalue (by norm_num)
  have hexp : 0 < deviation (List.replicate 20 4) → ExpBounded := fun h => absurd h hnone
  obtain ⟨fit, hfit, hsingle, -⟩ :=
    ofValues_replicate (p := {}) hv (Nat.succ_pos 19) (by decide) rfl (by decide) hexp
  exact ⟨hv, by decide, rfl, by decide, hexp, hcentred, fit, hfit, hsingle hcentred⟩

/-- At nine tenths rounding puts the distribution function of a single bucket above a half, and that
of three buckets comes nearer. -/
theorem exists_constant_threeBuckets : (0.9 : Float).isFinite = true ∧
    ({} : Params).validate = .ok () ∧
    ∃ step, ofValues (List.replicate 1 0.9) {} = .ok (.step step) ∧
      step.units = [0, 1000000, 0] ∧ ¬ IsSingleBucket 0.9 {} (.step step) := by
  have hv : (0.9 : Float).isFinite = true := by decide +kernel
  have hnone : ¬ 0 < deviation (List.replicate 1 0.9) := by decide +kernel
  have hthree : ∀ extra < 5, bucketDistance [0.9] (extra + 1) ≤ bucketDistance [0.9] 3 →
      (∀ fewer < extra, bucketDistance [0.9] (extra + 1) < bucketDistance [0.9] (fewer + 1)) →
        extra = 2 := by
    decide +kernel
  obtain ⟨extra, hallows, hbest, hother, hfewer⟩ := bestStep_eq [0.9] {}
  obtain rfl := hthree extra (Params.allows_succ_iff.mp hallows)
    (hother 2 (Params.allows_succ_iff.mpr (by decide))) hfewer
  have hunits : (StepFit.ofValues [0.9] 2 6).units = [0, 1000000, 0] := by decide +kernel
  refine ⟨hv, rfl, _, ?_, hunits, ?_⟩
  · rw [ofValues_eq (by simp) (by decide +kernel), if_neg fun h => hnone h.1]
    rw [show List.replicate 1 (0.9 : Float) = [0.9] from rfl, hbest]
  · rintro ⟨step, hstep, -, hsingle, -⟩
    cases hstep
    rw [hunits] at hsingle
    simp at hsingle

end Fit

end FairProgram
