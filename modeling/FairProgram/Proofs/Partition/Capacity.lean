import FairProgram.Partition.Checked
import FairProgram.Proofs.Partition.Segments

/-!
# Room for a search

A search that runs is the search without bounds as long as the lists that it asks for can be held
(`checkedSplit_eq`, `checkedRefine_eq`), and otherwise ends without an answer. Bins and thresholds
count once rows are searched, and the buckets of step fits once rows are fitted.
-/

namespace FairProgram

open Stats Whole

-- ---------------------------------------------------------------------------
-- Fits
-- ---------------------------------------------------------------------------

namespace Fit

variable {values : List Float} {p : Params} {extra : Nat}

theorem stepCandidate?_eq_some (h : extra + 1 < maxDoubles) :
    stepCandidate? values extra = some (extra, stepDistance values extra) := by
  rw [stepCandidate?, stepDistance?, Histogram.equalWidth?_eq_some h]
  rfl

theorem stepCandidate?_eq_none (h : maxDoubles ≤ extra + 1) :
    stepCandidate? values extra = none := by
  rw [stepCandidate?, stepDistance?, Histogram.equalWidth?_eq_none h]
  rfl

theorem bestStep?_eq_some (h : p.maxStepBuckets ≤ maxDoubles) :
    bestStep? values p = some (bestStep values p) := by
  have hothers : (List.range (p.maxStepBuckets - 2)).mapM (fun i => stepCandidate? values (i + 1)) =
      some ((List.range (p.maxStepBuckets - 2)).map fun i => (i + 1, stepDistance values (i + 1))) :=
    mapM_eq_pure_map fun i hi => by
      have hlt := List.mem_range.mp hi
      exact stepCandidate?_eq_some (by omega)
  rw [bestStep?, stepCandidate?_eq_some (by decide), hothers]
  rfl

/-- The histogram of most buckets is the one that cannot be held. -/
theorem bestStep?_eq_none (h : maxDoubles < p.maxStepBuckets) : bestStep? values p = none := by
  have htwo : 2 ≤ maxDoubles := by decide
  have hlast : p.maxStepBuckets - 3 ∈ List.range (p.maxStepBuckets - 2) :=
    List.mem_range.mpr (by omega)
  have hothers : (List.range (p.maxStepBuckets - 2)).mapM (fun i => stepCandidate? values (i + 1)) =
      none := mapM_eq_none hlast (stepCandidate?_eq_none (by omega))
  rw [bestStep?, stepCandidate?_eq_some (by decide), hothers]
  rfl

theorem ofValues?_eq_some (h : p.maxStepBuckets ≤ maxDoubles) :
    ofValues? values p = some (ofValues values p) := by
  simp only [ofValues?, scored?, ofValues, scored, bestStep?_eq_some h]
  split
  · rfl
  · split
    · rfl
    · cases gaussian? values <;> rfl

theorem ofValues?_eq_none (hne : values ≠ []) (hf : ∀ v ∈ values, v.isFinite = true)
    (h : maxDoubles < p.maxStepBuckets) : ofValues? values p = none := by
  have he : values.isEmpty = false := List.isEmpty_eq_false_iff.mpr hne
  simp only [ofValues?, scored?, he, firstNonFinite?_eq_none_iff.mpr hf, bestStep?_eq_none h]
  rfl

end Fit

-- ---------------------------------------------------------------------------
-- Searches
-- ---------------------------------------------------------------------------

/-- One threshold more than a list can hold. -/
def tooManyThresholds : Params := { candidateThresholds := 1152921504606846976 }

/-- A cut of some rows asks for more bins or thresholds than can be held. Fewer than two rows are
not searched. -/
def Params.Overruns (p : Params) (rows : Nat) : Prop :=
  2 ≤ rows ∧ (maxDoubles ≤ p.entropyBins ∨ maxDoubles < p.candidateThresholds)

/-- Room for a refinement of some rows, which counts them in bins also where they are too few. -/
structure Params.HasRoom (p : Params) (rows : Nat) : Prop where
  bins : p.entropyBins < maxDoubles
  thresholds : 2 ≤ rows → p.candidateThresholds ≤ maxDoubles

theorem Params.HasRoom.mono {p : Params} {part whole : Nat} (h : p.HasRoom whole)
    (hle : part ≤ whole) : p.HasRoom part :=
  ⟨h.bins, fun hmany => h.thresholds (hmany.trans hle)⟩

theorem Params.HasRoom.not_overruns {p : Params} {part whole : Nat} (h : p.HasRoom whole)
    (hle : part ≤ whole) : ¬ p.Overruns part := by
  rintro ⟨hmany, hbins | hthresholds⟩
  · exact Nat.not_le.mpr h.bins hbins
  · exact Nat.not_le.mpr hthresholds (h.thresholds (hmany.trans hle))

theorem Params.hasRoom_iff {p : Params} {rows : Nat} :
    p.HasRoom rows ↔ p.entropyBins < maxDoubles ∧ ¬ p.Overruns rows := by
  constructor
  · exact fun h => ⟨h.bins, h.not_overruns le_rfl⟩
  · rintro ⟨hbins, hnot⟩
    exact ⟨hbins, fun hmany => Nat.not_lt.mp fun hthresholds => hnot ⟨hmany, .inr hthresholds⟩⟩

namespace Partition

variable {p : Params} {whole : Nat} {least : Float} {rows : List Observation}
  {subject conditioning : List Float}

theorem checkedBestCut_eq (h : ¬ p.Overruns rows.length) :
    checkedBestCut p whole least rows = .ok (bestCut? p whole least rows) := by
  rw [checkedBestCut, bestCut?]
  split
  · rfl
  · rename_i hmany
    obtain ⟨hbins, hthresholds⟩ := not_or.mp (not_and.mp h (Nat.not_lt.mp hmany))
    rw [Histogram.equalWidth?_eq_some (Nat.not_le.mp hbins), candidates?, evenlySpaced?,
      if_pos (Nat.not_lt.mp hthresholds)]
    rfl

theorem checkedBestCut_eq_error (h : p.Overruns rows.length) :
    checkedBestCut p whole least rows = .error .capacity := by
  obtain ⟨hmany, hlarge⟩ := h
  rw [checkedBestCut, if_neg (Nat.not_lt.mpr hmany)]
  by_cases hbins : p.entropyBins < maxDoubles
  · have hthresholds := Nat.not_le.mpr (hlarge.resolve_left (Nat.not_le.mpr hbins))
    rw [Histogram.equalWidth?_eq_some hbins, candidates?, evenlySpaced?, if_neg hthresholds]
    rfl
  · rw [Histogram.equalWidth?_eq_none (Nat.not_lt.mp hbins)]
    rfl

theorem checkedFitRows_eq (h : p.maxStepBuckets ≤ maxDoubles) :
    checkedFitRows p rows = fitRows p rows := by
  rw [checkedFitRows, Fit.ofValues?_eq_some h, fitRows]
  cases Fit.ofValues (rows.map (·.subject)) p <;> rfl

theorem checkedHardest_eq (h : p.entropyBins < maxDoubles) (segments : List Segment) :
    checkedHardest p segments = .ok (hardest? p segments) := by
  have hentropies : segments.mapM (checkedEntropy p) = .ok (segments.map fun segment =>
      columnEntropy (segment.rows.map (·.subject)) p.entropyBins) :=
    mapM_eq_pure_map fun segment _ => by
      rw [checkedEntropy, columnEntropy?_eq_some h]
      rfl
  rw [checkedHardest, hentropies]
  rfl

theorem checkedHardest_eq_error (h : maxDoubles ≤ p.entropyBins) (first : Segment)
    (rest : List Segment) : checkedHardest p (first :: rest) = .error .capacity := by
  have hfirst : checkedEntropy p first = .error .capacity := by
    rw [checkedEntropy, columnEntropy?_eq_none h]
    rfl
  rw [checkedHardest, mapM_cons_of_error hfirst]
  rfl

/-- A single segment is the hardest, whatever its entropy. -/
theorem hardest?_singleton (p : Params) (segment : Segment) : hardest? p [segment] = some 0 :=
  rfl

theorem checkedCutSegments_eq {searched : Nat} (h : p.HasRoom searched) (cuts done : Nat)
    {segments : List Segment} (hrows : ∀ s ∈ segments, s.rows.length ≤ searched) :
    checkedCutSegments p whole cuts done segments = cutSegments p whole cuts done segments := by
  induction cuts generalizing done segments with
  | zero => rfl
  | succ cuts ih =>
    rw [checkedCutSegments, cutSegments, checkedHardest_eq h.bins]
    dsimp only [bind, Except.bind]
    cases hardest? p segments with
    | none => rfl
    | some place =>
      dsimp only
      cases hsegment : segments[place]? with
      | none => rfl
      | some segment =>
        have hlen := hrows segment (List.mem_of_getElem? hsegment)
        dsimp only
        rw [checkedBestCut_eq (h.not_overruns hlen)]
        dsimp only
        cases hbest : bestCut? p whole (p.gainForCut (done + 1)) segment.rows with
        | none => rfl
        | some cut =>
          dsimp only
          cases segment.range.splitAt? cut.threshold with
          | none => rfl
          | some sides =>
            obtain ⟨hbelow, habove⟩ := (bestCut?_ok hbest).length_sides_le
            exact ih (done + 1)
              (length_rows_le_of_cut hrows (hbelow.trans hlen) (habove.trans hlen) place _ _)

theorem length_observations? (h : observations? subject conditioning = some rows) :
    rows.length = subject.length := by
  unfold observations? at h
  split at h
  · rename_i hlen
    cases h
    simp [hlen]
  · cases h

theorem checkedRefine_eq (h : p.maxCuts = 0 ∨ p.HasRoom subject.length)
    (hbuckets : p.maxStepBuckets ≤ maxDoubles) :
    checkedRefine p subject conditioning = refine p subject conditioning := by
  rw [checkedRefine, refine]
  cases hrows : observations? subject conditioning with
  | none => rfl
  | some rows =>
    have hsegments : checkedCutSegments p rows.length p.maxCuts 0 [⟨.unbounded, rows⟩] =
        cutSegments p rows.length p.maxCuts 0 [⟨.unbounded, rows⟩] := by
      obtain hcuts | hroom := h
      · rw [hcuts]
        rfl
      · exact checkedCutSegments_eq hroom _ _ (by simp [length_observations? hrows])
    have hfit : checkedFitSegment p = fitSegment p := by
      funext segment
      rw [checkedFitSegment, checkedFitRows_eq hbuckets, fitSegment]
    dsimp only
    rw [hsegments, hfit]

theorem checkedRefine_eq_error (hlen : subject.length = conditioning.length) (hcuts : p.maxCuts ≠ 0)
    (h : ¬ p.HasRoom subject.length) :
    checkedRefine p subject conditioning = .error .capacity := by
  obtain ⟨rows, hrows⟩ : ∃ rows, observations? subject conditioning = some rows :=
    ⟨_, if_pos hlen⟩
  obtain ⟨cuts, hcuts⟩ := Nat.exists_eq_succ_of_ne_zero hcuts
  rw [checkedRefine, hrows, hcuts]
  dsimp only
  rw [checkedCutSegments]
  by_cases hbins : p.entropyBins < maxDoubles
  · have hoverruns : p.Overruns rows.length := by
      by_contra hnot
      exact h (Params.hasRoom_iff.mpr ⟨hbins, length_observations? hrows ▸ hnot⟩)
    rw [checkedHardest_eq hbins, hardest?_singleton]
    dsimp only [bind, Except.bind, List.getElem?_cons_zero]
    rw [checkedBestCut_eq_error hoverruns]
  · rw [checkedHardest_eq_error (Nat.not_lt.mp hbins)]
    rfl

end Partition

end FairProgram
