import FairProgram.Proofs.Partition.Search
import FairProgram.Proofs.Stats.Entropy
import Mathlib

/-!
# What accepted cuts gain

What a cut must gain grows from cut to cut as long as it is a number (`soundThresholds_iff`): an
infinite penalty, or one that outgrows all doubles where the first cut need not gain anything, makes
zero times infinity of it, and nothing is less than that. Otherwise no accepted cut gains less than
the first one must (`accepted_gains`).
-/

namespace FairProgram

namespace Params

open Double

-- ---------------------------------------------------------------------------
-- The gain asked for
-- ---------------------------------------------------------------------------

/-- By how much more the gain of a cut must be than that of the first. -/
def growth (p : Params) (cut : Nat) : Float :=
  1 + p.cutPenalty * Float.ofNat (cut - 1)

/-- The first cut must gain what is asked for, and later ones no less, as numbers. -/
structure SoundThresholds (p : Params) : Prop where
  first : p.gainForCut 1 = p.informationGain
  number : ∀ cut ≤ Whole.maxWord, (p.gainForCut cut).isNaN = false
  mono : ∀ cut later, cut ≤ later → later ≤ Whole.maxWord →
    p.gainForCut cut ≤ p.gainForCut later

/-- The penalty is finite and, where no gain is asked for, does not outgrow the doubles within as
many cuts as can be counted. -/
def PenaltyBounded (p : Params) : Prop :=
  p.cutPenalty.isFinite = true ∧
    (0 < p.informationGain ∨ (p.growth Whole.maxWord).isFinite = true)

section
variable {p : Params} {cut later : Nat}

theorem validate_ok (h : p.validate = .ok ()) :
    p.informationGain.isNaN = false ∧ 0 ≤ p.cutPenalty := by
  unfold validate at h
  split at h
  · cases h
  rename_i hgain
  split at h
  · cases h
  split at h
  · cases h
  rename_i hpenalty
  rw [not_or] at hpenalty
  exact ⟨by simpa using hgain, le_of_not_lt (by simpa using hpenalty.1)
    (isNaN_of_isFinite isFinite_zero) hpenalty.2⟩

theorem isFinite_further (h : cut ≤ Whole.maxWord) : (Float.ofNat (cut - 1)).isFinite = true :=
  isFinite_word ((Nat.sub_le cut 1).trans h)

section
variable (hp : 0 ≤ p.cutPenalty) (hf : p.cutPenalty.isFinite = true)
include hp hf

theorem penalty_nonneg (h : cut ≤ Whole.maxWord) : 0 ≤ p.cutPenalty * Float.ofNat (cut - 1) :=
  nonneg_mul hp (ofNat_nonneg _) (mul_rounds hf (isFinite_further h)).isNaN

theorem one_le_growth (h : cut ≤ Whole.maxWord) : 1 ≤ p.growth cut :=
  le_add_right (ofNat_nonneg 1) (penalty_nonneg hp hf h)

theorem growth_mono (h : cut ≤ later) (hlater : later ≤ Whole.maxWord) :
    p.growth cut ≤ p.growth later := by
  have hcut := h.trans hlater
  have hpenalty : p.cutPenalty * Float.ofNat (cut - 1) ≤ p.cutPenalty * Float.ofNat (later - 1) :=
    mul_le hp (ofNat_nonneg _) (le_self (isNaN_of_isFinite hf))
      (ofNat_le (Nat.sub_le_sub_right h 1)) (mul_rounds hf (isFinite_further hcut)).isNaN
      (mul_rounds hf (isFinite_further hlater)).isNaN
  exact add_le (ofNat_nonneg 1) (penalty_nonneg hp hf hcut) (le_self rfl) hpenalty

omit hp in
theorem growth_one : p.growth 1 = 1 := by
  have hpenalty := mul_rounds hf isFinite_zero
  rw [value_zero, mul_zero] at hpenalty
  obtain ⟨hfinite, hvalue⟩ := hpenalty.of_zero
  have hgrowth : Rounds (p.growth 1) (value 1) := by
    have h := add_rounds isFinite_one hfinite
    rwa [hvalue, add_zero] at h
  exact hgrowth.eq_of_ne_zero isFinite_one (by rw [value_one]; exact one_ne_zero)

end

theorem gainForCut_one (hg : p.informationGain.isNaN = false)
    (hf : p.cutPenalty.isFinite = true) : p.gainForCut 1 = p.informationGain := by
  have h : p.gainForCut 1 = p.informationGain * p.growth 1 := rfl
  rw [h, growth_one hf, mul_one_eq_self hg]

/-- The gain asked for is no number where none is asked for at first and the penalty outgrows the
doubles, and nowhere else. -/
theorem gainForCut_isNaN_iff (hg : 0 ≤ p.informationGain) (hp : 0 ≤ p.cutPenalty)
    (hf : p.cutPenalty.isFinite = true) (h : cut ≤ Whole.maxWord) :
    (p.gainForCut cut).isNaN = true ↔
      ¬ 0 < p.informationGain ∧ (p.growth cut).isFinite = false := by
  have hone := one_le_growth hp hf h
  have hpos : 0 < p.growth cut := lt_of_lt_of_le pos_one hone
  have hmul := mul_isNaN_iff hg (le_of_lt hpos)
  simp only [hpos, not_true_eq_false, and_false, or_false] at hmul
  exact hmul

/-- An infinite penalty makes zero times infinity of the first threshold. -/
theorem gainForCut_one_isNaN (hp : 0 ≤ p.cutPenalty) (hf : p.cutPenalty.isFinite = false) :
    (p.gainForCut 1).isNaN = true := by
  have hpenalty : (p.cutPenalty * Float.ofNat 0).isNaN = true :=
    (mul_isNaN_iff hp (ofNat_nonneg 0)).mpr (.inr ⟨hf, by decide +kernel⟩)
  exact isNaN_mul_right _ (isNaN_add_right 1 hpenalty)

theorem gainForCut_isNaN (hg : 0 ≤ p.informationGain) (hp : 0 ≤ p.cutPenalty)
    (hb : p.PenaltyBounded) (h : cut ≤ Whole.maxWord) : (p.gainForCut cut).isNaN = false := by
  obtain ⟨hf, hpos | hgrowth⟩ := hb
  · exact Bool.eq_false_iff.mpr fun hn => ((gainForCut_isNaN_iff hg hp hf h).mp hn).1 hpos
  · have hle := growth_mono hp hf h le_rfl
    have hnonneg : 0 ≤ p.growth cut := le_trans (ofNat_nonneg 1) (one_le_growth hp hf h)
    have hfinite := isFinite_of_le hnonneg hgrowth hle
    exact Bool.eq_false_iff.mpr fun hn => by
      simpa [hfinite] using ((gainForCut_isNaN_iff hg hp hf h).mp hn).2

/-- What a gain must be at least is a number that grows from cut to cut, starting with the gain
asked for, unless the penalty is infinite or makes zero times infinity of it later on. -/
theorem soundThresholds_iff (hv : p.validate = .ok ()) (hg : 0 ≤ p.informationGain) :
    p.SoundThresholds ↔ p.PenaltyBounded := by
  obtain ⟨hgain, hp⟩ := validate_ok hv
  constructor
  · intro h
    have hf : p.cutPenalty.isFinite = true := by
      by_contra hinf
      have hn := gainForCut_one_isNaN hp (Bool.eq_false_iff.mpr hinf)
      exact Bool.false_ne_true ((h.number 1 (by decide)).symm.trans hn)
    refine ⟨hf, or_iff_not_imp_left.mpr fun hpos => ?_⟩
    by_contra hinf
    have hn := (gainForCut_isNaN_iff hg hp hf le_rfl).mpr ⟨hpos, Bool.eq_false_iff.mpr hinf⟩
    exact Bool.false_ne_true ((h.number _ le_rfl).symm.trans hn)
  · intro h
    have hnumber {cut : Nat} (hcut : cut ≤ Whole.maxWord) := gainForCut_isNaN hg hp h hcut
    refine ⟨gainForCut_one hgain h.1, fun cut => hnumber, fun cut later hle hlater => ?_⟩
    have hcut := hle.trans hlater
    have hnonneg : 0 ≤ p.growth cut := le_trans (ofNat_nonneg 1) (one_le_growth hp h.1 hcut)
    exact mul_le hg hnonneg (le_self hgain) (growth_mono hp h.1 hle hlater) (hnumber hcut)
      (hnumber hlater)

end

/-- A gain that is not below the one asked for. As far as logarithms are bounded it is a number,
and so at least the one asked for. -/
structure Gains (p : Params) (gain : Float) : Prop where
  not_lt : ¬ gain < p.informationGain
  le : LogBounded → p.informationGain ≤ gain

end Params

namespace Partition

open Stats Double

-- ---------------------------------------------------------------------------
-- Cuts
-- ---------------------------------------------------------------------------

/-- The cuts accepted while segments are cut, in order, with what becomes of the segments. -/
def acceptedCuts (p : Params) (whole : Nat) :
    (cuts done : Nat) → List Segment → List Cut × Except SearchError (List Segment)
  | 0, _, segments => ([], .ok segments)
  | cuts + 1, done, segments =>
    match hardest? p segments with
    | none => ([], .ok segments)
    | some place =>
      match segments[place]? with
      | none => ([], .ok segments)
      | some segment =>
        match bestCut? p whole (p.gainForCut (done + 1)) segment.rows with
        | none => ([], .ok segments)
        | some cut =>
          match segment.range.splitAt? cut.threshold with
          | none => ([cut], .error .emptyRange)
          | some (below, above) =>
            let (later, result) := acceptedCuts p whole cuts (done + 1)
              (segments.take place ++ ⟨below, cut.below⟩ :: ⟨above, cut.above⟩ ::
                segments.drop (place + 1))
            (cut :: later, result)

section
variable {p : Params} {whole cuts done : Nat} {segments : List Segment}
  {rows : List Observation}

theorem acceptedCuts_snd : (acceptedCuts p whole cuts done segments).2 =
    cutSegments p whole cuts done segments := by
  induction cuts generalizing done segments with
  | zero => rfl
  | succ cuts ih =>
    unfold acceptedCuts cutSegments
    cases hardest? p segments with
    | none => rfl
    | some place =>
      dsimp only
      cases segments[place]? with
      | none => rfl
      | some segment =>
        dsimp only
        cases bestCut? p whole (p.gainForCut (done + 1)) segment.rows with
        | none => rfl
        | some cut =>
          dsimp only
          cases segment.range.splitAt? cut.threshold with
          | none => rfl
          | some sides => exact ih

theorem gainAt_isNaN (hlog : LogBounded) (hrows : rows.length ≤ Whole.maxWord) (t : Float) :
    (gainAt p rows t).isNaN = false := by
  refine gainOnEdges_isNaN hlog ((Histogram.size_equalWidth_le _ _).trans ?_) ?_
  · rwa [List.length_map]
  · have hsides := List.length_eq_length_filter_add
      (l := rows) (fun row => decide (row.conditioning ≤ t))
    rw [List.length_map, List.length_map, rowsBelow, rowsAbove]
    omega

/-- The best cut gains what is asked for, and no sides of it have more rows than there are. -/
theorem bestCut?_gains {cut : Cut} {least : Float}
    (hbest : bestCut? p whole least rows = some cut) :
    ¬ cut.gain < least ∧ cut.gain = gainAt p rows cut.threshold ∧
      cut.below.length ≤ rows.length ∧ cut.above.length ≤ rows.length := by
  rw [bestCut?_eq] at hbest
  obtain ⟨t, -, hcut⟩ := List.mem_filterMap.mp (mem_of_firstBest?_eq_some _ hbest)
  obtain ⟨rfl, -, hgain⟩ := cutAt?_eq_some_iff.mp hcut
  exact ⟨hgain, rfl, List.length_filter_le _ _, List.length_filter_le _ _⟩

/-- What a round comes to: no cut, a cut that leaves an empty range, or a cut and further rounds. -/
theorem acceptedCuts_succ (p : Params) (whole cuts done : Nat) (segments : List Segment) :
    acceptedCuts p whole (cuts + 1) done segments = ([], .ok segments) ∨
      ∃ place segment cut, segments[place]? = some segment ∧
        bestCut? p whole (p.gainForCut (done + 1)) segment.rows = some cut ∧
        (acceptedCuts p whole (cuts + 1) done segments = ([cut], .error .emptyRange) ∨
          ∃ below above, acceptedCuts p whole (cuts + 1) done segments =
            (acceptedCuts p whole cuts (done + 1) (segments.take place ++
              ⟨below, cut.below⟩ :: ⟨above, cut.above⟩ :: segments.drop (place + 1))).map
              (cut :: ·) id) := by
  rw [acceptedCuts]
  split
  · exact .inl rfl
  · rename_i place _
    split
    · exact .inl rfl
    · rename_i segment hplace
      split
      · exact .inl rfl
      · rename_i cut hbest
        refine .inr ⟨place, segment, cut, hplace, hbest, ?_⟩
        split
        · exact .inl rfl
        · rename_i below above _
          exact .inr ⟨below, above, rfl⟩

/-- Every cut makes one segment more. -/
theorem acceptedCuts_length {result : List Segment}
    (h : (acceptedCuts p whole cuts done segments).2 = .ok result) :
    result.length = segments.length + (acceptedCuts p whole cuts done segments).1.length := by
  induction cuts generalizing done segments with
  | zero =>
    cases h
    rfl
  | succ cuts ih =>
    obtain heq | ⟨place, segment, cut, hplace, -, heq | ⟨below, above, heq⟩⟩ :=
      acceptedCuts_succ p whole cuts done segments
    · rw [heq] at h ⊢
      cases h
      rfl
    · rw [heq] at h
      cases h
    · rw [heq] at h ⊢
      have hlt := (List.getElem?_eq_some_iff.mp hplace).1
      rw [ih h, Prod.map_fst, List.length_cons]
      simp only [List.length_append, List.length_take, List.length_cons, List.length_drop]
      omega

theorem acceptedCuts_gains (hrows : ∀ segment ∈ segments, segment.rows.length ≤ whole)
    {later : Nat} {cut : Cut}
    (h : (acceptedCuts p whole cuts done segments).1[later]? = some cut) :
    later < cuts ∧ ¬ cut.gain < p.gainForCut (done + later + 1) ∧
      ∃ rows : List Observation, rows.length ≤ whole ∧ cut.gain = gainAt p rows cut.threshold := by
  induction cuts generalizing done segments later with
  | zero => cases h
  | succ cuts ih =>
    obtain heq | ⟨place, segment, first, hplace, hbest, hcuts⟩ :=
      acceptedCuts_succ p whole cuts done segments
    · rw [heq] at h
      cases h
    obtain ⟨hgain, hfirst, hbelow, habove⟩ := bestCut?_gains hbest
    have hsegment := hrows segment (List.mem_of_getElem? hplace)
    cases later with
    | zero =>
      obtain rfl : first = cut := by
        obtain heq | ⟨below, above, heq⟩ := hcuts <;>
        · rw [heq] at h
          exact Option.some.inj h
      exact ⟨Nat.succ_pos cuts, hgain, segment.rows, hsegment, hfirst⟩
    | succ later =>
      obtain heq | ⟨below, above, heq⟩ := hcuts <;> rw [heq] at h
      · cases h
      have hparts := length_rows_le_of_cut hrows (hbelow.trans hsegment) (habove.trans hsegment)
        place below above
      obtain ⟨hlt, hlater, hrest⟩ := ih hparts h
      rw [Nat.add_right_comm done 1 later, Nat.add_assoc done later 1] at hlater
      exact ⟨Nat.succ_lt_succ hlt, hlater, hrest⟩

/-- No cut of a split or a refinement gains less than is asked for of the first cut. What later cuts
must gain is sound if and only if the penalty is bounded, and where it is, that is no less. -/
theorem accepted_gains {p : Params} (hv : p.validate = .ok ()) (hg : 0 ≤ p.informationGain)
    (hcuts : p.maxCuts ≤ Whole.maxWord) :
    (p.SoundThresholds ↔ p.PenaltyBounded) ∧
      (p.PenaltyBounded → ∀ subject conditioning, subject.length ≤ Whole.maxWord →
        (∀ s, split p subject conditioning = .ok (some s) → p.Gains s.gain) ∧
        ∀ rows, observations? subject conditioning = some rows →
          let (cuts, result) := acceptedCuts p rows.length p.maxCuts 0 [⟨.unbounded, rows⟩]
          result = cutSegments p rows.length p.maxCuts 0 [⟨.unbounded, rows⟩] ∧
            (∀ segments, result = .ok segments → segments.length = cuts.length + 1) ∧
            ∀ cut ∈ cuts, p.Gains cut.gain) := by
  refine ⟨p.soundThresholds_iff hv hg, fun hb subject conditioning hlen => ?_⟩
  have hsound := (p.soundThresholds_iff hv hg).mpr hb
  have hgains {rows : List Observation} {cut : Cut} {n : Nat} (hrows : rows.length ≤ Whole.maxWord)
      (hgain : ¬ cut.gain < p.gainForCut (n + 1)) (hn : n + 1 ≤ Whole.maxWord)
      (heq : cut.gain = gainAt p rows cut.threshold) : p.Gains cut.gain := by
    have hle := hsound.mono 1 (n + 1) (Nat.le_add_left 1 n) hn
    rw [hsound.first] at hle
    refine ⟨fun hlt => hgain (lt_of_lt_of_le hlt hle), fun hlog => ?_⟩
    have hnumber : cut.gain.isNaN = false := heq ▸ gainAt_isNaN hlog hrows _
    exact le_trans hle (le_of_not_lt hnumber (hsound.number _ hn) hgain)
  constructor
  · intro s hs
    unfold split at hs
    split at hs
    · cases hs
    rename_i rows hrows
    split at hs
    · cases hs
    rename_i cut hbest
    obtain ⟨hgain, heq, -⟩ := bestCut?_gains hbest
    have hcut := hgains (length_observations? hrows ▸ hlen) hgain (by decide) heq
    simp only [bind, Except.bind, pure, Except.pure] at hs
    split at hs
    · cases hs
    split at hs
    · cases hs
    · cases hs
      exact hcut
  · intro rows hrows
    refine ⟨acceptedCuts_snd, fun segments h => ?_, fun cut hcut => ?_⟩
    · rw [acceptedCuts_length h, List.length_singleton, Nat.add_comm]
    obtain ⟨later, hlater⟩ := List.getElem?_of_mem hcut
    obtain ⟨hlt, hgain, rows', hrows', heq⟩ := acceptedCuts_gains (by simp) hlater
    rw [Nat.zero_add] at hgain
    exact hgains (hrows'.trans (length_observations? hrows ▸ hlen)) hgain (hlt.trans_le hcuts) heq

end

theorem accepted_gains_farApart : oneCut.SoundThresholds ∧
    ∃ s, split oneCut farApart [0, 1] = .ok (some s) ∧ oneCut.Gains s.gain := by
  have hb : oneCut.PenaltyBounded := ⟨by decide +kernel, .inr (by decide +kernel)⟩
  have hpositions : (split oneCut farApart [0, 1]).toOption.join.map
      (fun s => (s.below.positions, s.above.positions)) = some ([0], [1]) := by decide +kernel
  obtain ⟨hsound, hgains⟩ := accepted_gains (p := oneCut) rfl (by decide +kernel) (by decide)
  cases h : split oneCut farApart [0, 1] with
  | error e => simp [h, Except.toOption] at hpositions
  | ok result =>
    cases result with
    | none => simp [h, Except.toOption] at hpositions
    | some s => exact ⟨hsound.mpr hb, s, rfl, (hgains hb farApart [0, 1] (by decide)).1 s h⟩

def infinitePenalty : Params := { (default : Params) with cutPenalty := 1 / 0 }

/-- With an infinite penalty not even the first cut must gain anything. -/
theorem infinitePenalty_accepts : infinitePenalty.validate = .ok () ∧
    0 ≤ infinitePenalty.informationGain ∧ (infinitePenalty.gainForCut 1).isNaN = true ∧
    ((split infinitePenalty farApart [0, 1]).toOption.join.any fun s =>
      s.gain < infinitePenalty.informationGain) = true := by
  refine ⟨rfl, ?_, ?_, ?_⟩
  all_goals decide +kernel

end Partition

end FairProgram
