import FairProgram.Partition.Refinement
import FairProgram.Proofs.Faults
import FairProgram.Proofs.Partition.Ranges

/-!
# Refinements divide the rows

Every cut puts its threshold strictly inside the range of the rows that it splits, so cutting never
fails, and the segments stay a chain of ranges with each row in the segment whose range holds its
conditioning value (`Segmented`). Refining therefore gives nothing, the error of a fit, or buckets
that hold the rows of their ranges with the fits of these rows (`refine_cases`), and for finite
columns no fit fails (`refine_ok`).
-/

namespace FairProgram

/-- Enough rows for one side of a cut of `whole` rows. -/
def Params.Supports (p : Params) (part whole : Nat) : Prop :=
  ¬ Float.ofNat part < p.partitionShare * Float.ofNat whole

namespace Partition

open Stats

-- ---------------------------------------------------------------------------
-- Cuts
-- ---------------------------------------------------------------------------

def rowsBelow (rows : List Observation) (threshold : Float) : List Observation :=
  rows.filter fun row => row.conditioning ≤ threshold

def rowsAbove (rows : List Observation) (threshold : Float) : List Observation :=
  rows.filter fun row => !decide (row.conditioning ≤ threshold)

def gainAt (p : Params) (rows : List Observation) (threshold : Float) : Float :=
  gainOnEdges (Histogram.equalWidth (rows.map (·.subject)) p.entropyBins)
    ((rowsBelow rows threshold).map (·.subject)) ((rowsAbove rows threshold).map (·.subject))

def cutOf (p : Params) (rows : List Observation) (threshold : Float) : Cut :=
  ⟨threshold, gainAt p rows threshold, rowsBelow rows threshold, rowsAbove rows threshold⟩

/-- What every accepted cut of rows is like. -/
structure IsCut (p : Params) (whole : Nat) (rows : List Observation) (cut : Cut) : Prop where
  below : cut.below = rowsBelow rows cut.threshold
  above : cut.above = rowsAbove rows cut.threshold
  below_ne_nil : cut.below ≠ []
  above_ne_nil : cut.above ≠ []
  below_supported : p.Supports cut.below.length whole
  above_supported : p.Supports cut.above.length whole

section
variable {p : Params} {whole : Nat} {least : Float} {rows : List Observation}

/-- The cut at a threshold is refused for its sides or for its gain, and for nothing else. -/
theorem cutAt?_eq_some_iff {threshold : Float} {cut : Cut} :
    cutAt? p whole least rows threshold = some cut ↔
      cut = cutOf p rows threshold ∧ IsCut p whole rows cut ∧ ¬ cut.gain < least := by
  simp only [cutAt?, cutOn?, splitRows, List.partition_eq_filter_filter, Bool.or_eq_true,
    decide_eq_true_eq]
  constructor
  · intro h
    split at h
    · cases h
    · rename_i hsize
      split at h
      · cases h
      · rename_i hgain
        cases h
        simp only [not_or, List.isEmpty_iff] at hsize
        obtain ⟨⟨hb, hbs⟩, ha, has⟩ := hsize
        exact ⟨rfl, ⟨rfl, rfl, hb, ha, hbs, has⟩, hgain⟩
  · rintro ⟨rfl, ⟨-, -, hb, ha, hbs, has⟩, hgain⟩
    rw [if_neg, if_neg]
    · rfl
    · exact hgain
    · simp only [not_or, List.isEmpty_iff]
      exact ⟨⟨hb, hbs⟩, ha, has⟩

theorem IsCut.length_sides_le {cut : Cut} (h : IsCut p whole rows cut) :
    cut.below.length ≤ rows.length ∧ cut.above.length ≤ rows.length := by
  rw [h.below, h.above]
  exact ⟨List.length_filter_le _ _, List.length_filter_le _ _⟩

theorem bestCut?_ok {cut : Cut} (h : bestCut? p whole least rows = some cut) :
    IsCut p whole rows cut := by
  unfold bestCut? at h
  split at h
  · cases h
  · obtain ⟨_, _, hc⟩ := List.mem_filterMap.mp (mem_of_firstBest?_eq_some _ h)
    exact (cutAt?_eq_some_iff.mp hc).2.1

end

-- ---------------------------------------------------------------------------
-- Segments
-- ---------------------------------------------------------------------------

/-- A bound on the rows of segments holds of the two sides that take the place of a segment too. -/
theorem length_rows_le_of_cut {segments : List Segment} {cut : Cut} {bound : Nat}
    (h : ∀ s ∈ segments, s.rows.length ≤ bound) (hbelow : cut.below.length ≤ bound)
    (habove : cut.above.length ≤ bound) (place : Nat) (below above : Range) :
    ∀ s ∈ segments.take place ++ ⟨below, cut.below⟩ :: ⟨above, cut.above⟩ ::
      segments.drop (place + 1), s.rows.length ≤ bound := by
  intro s hs
  simp only [List.mem_append, List.mem_cons] at hs
  obtain hs | rfl | rfl | hs := hs
  · exact h s (List.mem_of_mem_take hs)
  · exact hbelow
  · exact habove
  · exact h s (List.mem_of_mem_drop hs)

/-- The rows whose conditioning value lies in a range. -/
def rowsIn (rows : List Observation) (range : Range) : List Observation :=
  rows.filter fun row => range.contains row.conditioning

/-- Segments that divide rows by ranges, with enough rows in each once there are several. -/
structure Segmented (p : Params) (rows : List Observation) (segments : List Segment) : Prop where
  chain : Range.Chain (-1 / 0) (segments.map (·.range)) (1 / 0)
  rows_eq : ∀ s ∈ segments, s.rows = rowsIn rows s.range
  several : segments.length = 1 ∨
    ∀ s ∈ segments, s.rows ≠ [] ∧ p.Supports s.rows.length rows.length

section
variable {p : Params} {rows : List Observation}

theorem Segmented.start (h : ∀ row ∈ rows, row.conditioning.isFinite = true) :
    Segmented p rows [⟨.unbounded, rows⟩] where
  chain := .unbounded
  rows_eq := by
    rintro s hs
    obtain rfl := List.mem_singleton.mp hs
    exact (List.filter_eq_self.mpr fun row hr => Range.unbounded_contains (h row hr)).symm
  several := .inl rfl

variable {before after : List Segment} {segment : Segment} {cut : Cut}

/-- A cut that leaves rows on both sides has its threshold strictly inside the range. -/
theorem Segmented.threshold (h : Segmented p rows (before ++ segment :: after))
    (hc : IsCut p rows.length segment.rows cut) :
    segment.range.lower < cut.threshold ∧ cut.threshold < segment.range.upper := by
  have hin : ∀ row ∈ segment.rows,
      segment.range.lower < row.conditioning ∧ row.conditioning ≤ segment.range.upper := by
    intro row hr
    rw [h.rows_eq segment (by simp)] at hr
    exact Range.contains_iff.mp (List.mem_filter.mp hr).2
  obtain ⟨b, hb⟩ := List.exists_mem_of_ne_nil _ hc.below_ne_nil
  obtain ⟨a, ha⟩ := List.exists_mem_of_ne_nil _ hc.above_ne_nil
  rw [hc.below] at hb
  rw [hc.above] at ha
  obtain ⟨hb, hbt⟩ := List.mem_filter.mp hb
  obtain ⟨ha, hat⟩ := List.mem_filter.mp ha
  have hbt : b.conditioning ≤ cut.threshold := by simpa using hbt
  have hat : ¬ a.conditioning ≤ cut.threshold := by simpa using hat
  have hlt : cut.threshold < a.conditioning :=
    Double.lt_of_not_le (Double.le_iff.mp (hin a ha).2).1 (Double.le_iff.mp hbt).2.1 hat
  exact ⟨Double.lt_of_lt_of_le (hin b hb).1 hbt, Double.lt_of_lt_of_le hlt (hin a ha).2⟩

theorem Segmented.of_cut (h : Segmented p rows (before ++ segment :: after))
    (hc : IsCut p rows.length segment.rows cut) :
    Segmented p rows (before ++ ⟨⟨segment.range.lower, cut.threshold⟩, cut.below⟩ ::
      ⟨⟨cut.threshold, segment.range.upper⟩, cut.above⟩ :: after) := by
  obtain ⟨hl, hu⟩ := h.threshold hc
  have hrows : segment.rows = rowsIn rows segment.range := h.rows_eq segment (by simp)
  refine ⟨?_, ?_, .inr ?_⟩
  · have hchain := h.chain
    rw [List.map_append, List.map_cons] at hchain
    rw [List.map_append, List.map_cons, List.map_cons]
    exact hchain.split hl hu
  · intro s hs
    rw [List.mem_append, List.mem_cons, List.mem_cons] at hs
    obtain hs | rfl | rfl | hs := hs
    · exact h.rows_eq s (by simp [hs])
    · show cut.below = _
      rw [hc.below, hrows, rowsBelow, rowsIn, rowsIn, List.filter_filter]
      exact List.filter_congr fun row _ => by rw [Range.contains_below hu, Bool.and_comm]
    · show cut.above = _
      rw [hc.above, hrows, rowsAbove, rowsIn, rowsIn, List.filter_filter]
      exact List.filter_congr fun row _ => by rw [Range.contains_above hl, Bool.and_comm]
    · exact h.rows_eq s (by simp [hs])
  · intro s hs
    have hother : s ∈ before ∨ s ∈ after → s.rows ≠ [] ∧ p.Supports s.rows.length rows.length := by
      intro ho
      obtain hone | hall := h.several
      · simp only [List.length_append, List.length_cons] at hone
        have hb : before = [] := List.eq_nil_of_length_eq_zero (by omega)
        have ha : after = [] := List.eq_nil_of_length_eq_zero (by omega)
        simp [hb, ha] at ho
      · exact hall s (by obtain ho | ho := ho <;> simp [ho])
    rw [List.mem_append, List.mem_cons, List.mem_cons] at hs
    obtain hs | rfl | rfl | hs := hs
    · exact hother (.inl hs)
    · exact ⟨hc.below_ne_nil, hc.below_supported⟩
    · exact ⟨hc.above_ne_nil, hc.above_supported⟩
    · exact hother (.inr hs)

/-- Segments that cuts have led to, with the thresholds of the cuts. Each threshold goes where the
segment that it cuts was. -/
inductive CutInto (p : Params) (rows : List Observation) : List Float → List Segment → Prop
  | whole : CutInto p rows [] [⟨.unbounded, rows⟩]
  | cut {thresholds : List Float} {before after : List Segment} {segment : Segment} {cut : Cut} :
      CutInto p rows thresholds (before ++ segment :: after) →
      IsCut p rows.length segment.rows cut →
      CutInto p rows (thresholds.insertIdx before.length cut.threshold)
        (before ++ ⟨⟨segment.range.lower, cut.threshold⟩, cut.below⟩ ::
          ⟨⟨cut.threshold, segment.range.upper⟩, cut.above⟩ :: after)

variable {thresholds : List Float} {segments : List Segment}

theorem CutInto.segmented (h : CutInto p rows thresholds segments)
    (hc : ∀ row ∈ rows, row.conditioning.isFinite = true) : Segmented p rows segments := by
  induction h with
  | whole => exact .start hc
  | cut _ hcut ih => exact ih.of_cut hcut

theorem insertIdx_length_append {α : Type} (before after : List α) (a : α) :
    (before ++ after).insertIdx before.length a = before ++ a :: after := by
  induction before with
  | nil => rfl
  | cons b before ih => simp [ih]

/-- Thresholds kept apart from the segments are the bounds between the segments. -/
theorem CutInto.thresholds_eq (h : CutInto p rows thresholds segments) :
    thresholds = segments.dropLast.map (·.range.upper) := by
  induction h with
  | whole => rfl
  | @cut _ before after segment cut _ _ ih =>
    -- The upper part of a cut segment ends where the segment did.
    have hlast : ((⟨⟨cut.threshold, segment.range.upper⟩, cut.above⟩ :: after).dropLast).map
        (·.range.upper) = ((segment :: after).dropLast).map (·.range.upper) := by
      cases after <;> rfl
    rw [List.dropLast_append_of_ne_nil (List.cons_ne_nil _ _), List.map_append] at ih ⊢
    rw [List.dropLast_cons_cons, List.map_cons, hlast, ih, ← List.length_map (·.range.upper),
      insertIdx_length_append]

/-- Cutting never fails, and leads to segments by as many cuts as it may make at most. -/
theorem cutSegments_ok (hc : ∀ row ∈ rows, row.conditioning.isFinite = true) (cuts done : Nat)
    (h : CutInto p rows thresholds segments) :
    ∃ thresholds' result, cutSegments p rows.length cuts done segments = .ok result ∧
      CutInto p rows thresholds' result ∧ thresholds'.length ≤ thresholds.length + cuts := by
  induction cuts generalizing done thresholds segments with
  | zero => exact ⟨thresholds, segments, rfl, h, Nat.le_refl _⟩
  | succ cuts ih =>
    have hstop : thresholds.length ≤ thresholds.length + (cuts + 1) := Nat.le_add_right _ _
    unfold cutSegments
    split
    · exact ⟨thresholds, segments, rfl, h, hstop⟩
    · rename_i place _
      split
      · exact ⟨thresholds, segments, rfl, h, hstop⟩
      · rename_i segment hplace
        split
        · exact ⟨thresholds, segments, rfl, h, hstop⟩
        · rename_i cut hbest
          have hcut := bestCut?_ok hbest
          obtain ⟨hlt, rfl⟩ := List.getElem?_eq_some_iff.mp hplace
          have hsplit : segments = segments.take place ++ segments[place] ::
              segments.drop (place + 1) := by simp
          rw [hsplit] at h
          obtain ⟨hl, hu⟩ := (h.segmented hc).threshold hcut
          rw [Range.splitAt?_eq_some hl hu]
          obtain ⟨thresholds', result, hresult, hinto, hlen⟩ := ih (done + 1) (h.cut hcut)
          have hinsert : (thresholds.insertIdx (segments.take place).length cut.threshold).length ≤
              thresholds.length + 1 := List.length_insertIdx_le_succ
          exact ⟨thresholds', result, hresult, hinto, by omega⟩

end

-- ---------------------------------------------------------------------------
-- Refinements
-- ---------------------------------------------------------------------------

/-- Either every element has a result, or the error is that of an element. -/
theorem mapM_cases {α β ε : Type} (f : α → Except ε β) (l : List α) :
    (∃ bs, l.mapM f = .ok bs ∧ List.Forall₂ (fun a b => f a = .ok b) l bs) ∨
      ∃ a ∈ l, ∃ e, l.mapM f = .error e ∧ f a = .error e := by
  cases h : l.mapM f with
  | ok bs => exact .inl ⟨bs, rfl, mapM_eq_ok_iff_forall₂.mp h⟩
  | error e =>
    obtain ⟨place, a, ha, hfault, -⟩ := mapM_eq_error_iff.mp h
    exact .inr ⟨a, List.mem_of_getElem? ha, e, rfl, hfault⟩

/-- Rows whose subject values have a fit, with that fit and the places of the rows. -/
def IsFitted (p : Params) (rows : List Observation) (fitted : FittedRows) : Prop :=
  fitted.positions = rows.map (·.position) ∧
    Fit.ofValues (rows.map (·.subject)) p = .ok fitted.fit

def FitsSegment (p : Params) (segment : Segment) (bucket : RefinedBucket) : Prop :=
  segment.range = bucket.range ∧ IsFitted p segment.rows bucket.rows

/-- A refinement that divides rows into at least two buckets. -/
structure Refines (p : Params) (rows : List Observation) (r : Refinement) : Prop where
  chain : Range.Chain (-1 / 0) (r.buckets.map (·.range)) (1 / 0)
  several : 1 < r.buckets.length
  fitted : ∀ b ∈ r.buckets, IsFitted p (rowsIn rows b.range) b.rows
  supported : ∀ b ∈ r.buckets, p.Supports (rowsIn rows b.range).length rows.length

section
variable {p : Params} {rows : List Observation} {segments : List Segment}
  {buckets : List RefinedBucket}

theorem exists_fit (hne : rows ≠ []) (hf : ∀ row ∈ rows, row.subject.isFinite = true) :
    ∃ fit, Fit.ofValues (rows.map (·.subject)) p = .ok fit :=
  Fit.exists_ofValues p (by simpa using hne) (by simpa using hf)

theorem fitRows_cases (p : Params) (rows : List Observation) :
    (∃ fitted, fitRows p rows = .ok fitted ∧ IsFitted p rows fitted) ∨
      ∃ e, fitRows p rows = .error (.fit e) ∧ Fit.ofValues (rows.map (·.subject)) p = .error e := by
  cases h : Fit.ofValues (rows.map (·.subject)) p with
  | ok fit => exact .inl ⟨⟨rows.map (·.position), fit⟩, by simp [fitRows, h], rfl, h⟩
  | error e => exact .inr ⟨e, by simp [fitRows, h], rfl⟩

theorem fitSegment_cases (p : Params) (segment : Segment) :
    (∃ bucket, fitSegment p segment = .ok bucket ∧ FitsSegment p segment bucket) ∨
      ∃ e, fitSegment p segment = .error (.fit e) ∧
        Fit.ofValues (segment.rows.map (·.subject)) p = .error e := by
  obtain ⟨fitted, h, hspec⟩ | ⟨e, h, he⟩ := fitRows_cases p segment.rows
  · refine .inl ⟨⟨segment.range, fitted⟩, ?_, rfl, hspec⟩
    simp [fitSegment, h, bind, Except.bind, pure, Except.pure]
  · exact .inr ⟨e, by simp [fitSegment, h, bind, Except.bind], he⟩

theorem map_range_of_fits (h : List.Forall₂ (FitsSegment p) segments buckets) :
    segments.map (·.range) = buckets.map (·.range) := by
  rw [← List.forall₂_eq_eq_eq, List.forall₂_map_left_iff, List.forall₂_map_right_iff]
  exact h.imp fun _ _ h => h.1

theorem Segmented.refines (h : Segmented p rows segments) (hlen : 1 < segments.length)
    (hfit : List.Forall₂ (FitsSegment p) segments buckets) : Refines p rows ⟨buckets⟩ := by
  have heach : ∀ b ∈ buckets, IsFitted p (rowsIn rows b.range) b.rows ∧
      p.Supports (rowsIn rows b.range).length rows.length := by
    intro b hb
    obtain ⟨i, hi, rfl⟩ := List.mem_iff_getElem.mp hb
    have hi' : i < segments.length := hfit.length_eq ▸ hi
    obtain ⟨hrange, hfitted⟩ : FitsSegment p segments[i] buckets[i] := hfit.get hi' hi
    have hs : segments[i] ∈ segments := List.getElem_mem hi'
    have hsupp := (h.several.resolve_left hlen.ne' _ hs).2
    rw [h.rows_eq _ hs, hrange] at hfitted hsupp
    exact ⟨hfitted, hsupp⟩
  exact ⟨map_range_of_fits hfit ▸ h.chain, hfit.length_eq ▸ hlen, fun b hb => (heach b hb).1,
    fun b hb => (heach b hb).2⟩

/-- What refining can come to: no cut, a refinement, or the first fit that fails. -/
theorem refine_cases {subject conditioning : List Float}
    (ho : observations? subject conditioning = some rows)
    (hc : ∀ row ∈ rows, row.conditioning.isFinite = true) :
    ∃ thresholds segments, CutInto p rows thresholds segments ∧ thresholds.length ≤ p.maxCuts ∧
      (refine p subject conditioning = .ok none ∨
        (∃ buckets, refine p subject conditioning = .ok (some ⟨buckets⟩) ∧
          segments.map (·.range) = buckets.map (·.range) ∧ Refines p rows ⟨buckets⟩) ∨
        ∃ s ∈ segments, s.rows ≠ [] ∧ s.rows ⊆ rows ∧ ∃ e,
          refine p subject conditioning = .error (.fit e) ∧
          Fit.ofValues (s.rows.map (·.subject)) p = .error e) := by
  obtain ⟨thresholds, segments, hcut, hinto, hcuts⟩ :=
    cutSegments_ok (p := p) hc p.maxCuts 0 .whole
  have hseg := hinto.segmented hc
  have hrefine : refine p subject conditioning = if segments.length ≤ 1 then .ok none
      else (segments.mapM (fitSegment p)).map fun buckets => some ⟨buckets⟩ := by
    simp only [refine, ho, hcut, bind, Except.bind, pure, Except.pure, Except.map]
  refine ⟨thresholds, segments, hinto, by simpa using hcuts, ?_⟩
  by_cases hlen : segments.length ≤ 1
  · exact .inl (hrefine.trans (if_pos hlen))
  rw [if_neg hlen] at hrefine
  rw [Nat.not_le] at hlen
  obtain ⟨buckets, hb, hall⟩ | ⟨s, hs, error, herror, hfit⟩ := mapM_cases (fitSegment p) segments
  · have hfits : List.Forall₂ (FitsSegment p) segments buckets := hall.imp fun s b hsb => by
      obtain ⟨b', hb', hspec⟩ | ⟨e, he, -⟩ := fitSegment_cases p s
      · cases hsb.symm.trans hb'
        exact hspec
      · simp [hsb] at he
    exact .inr (.inl ⟨buckets, by rw [hrefine, hb]; rfl, map_range_of_fits hfits,
      hseg.refines hlen hfits⟩)
  · obtain ⟨b, hb, -⟩ | ⟨e, he, hvalues⟩ := fitSegment_cases p s
    · simp [hfit] at hb
    · rw [hfit, Except.error.injEq] at he
      subst he
      have hsub : s.rows ⊆ rows := hseg.rows_eq s hs ▸ List.filter_subset_self rows
      exact .inr (.inr ⟨s, hs, (hseg.several.resolve_left hlen.ne' s hs).1, hsub, e,
        by rw [hrefine, herror]; rfl, hvalues⟩)

theorem refine_ok {subject conditioning : List Float}
    (ho : observations? subject conditioning = some rows)
    (hs : ∀ row ∈ rows, row.subject.isFinite = true)
    (hc : ∀ row ∈ rows, row.conditioning.isFinite = true) :
    ∃ result, refine p subject conditioning = .ok result ∧
      ∀ r, result = some r → Refines p rows r := by
  obtain ⟨_, _, -, -, hnone | ⟨buckets, hsome, -, hr⟩ | ⟨s, -, hne, hsub, e, -, he⟩⟩ :=
    refine_cases (p := p) ho hc
  · exact ⟨none, hnone, by simp⟩
  · refine ⟨some ⟨buckets⟩, hsome, ?_⟩
    rintro r ⟨⟩
    exact hr
  · obtain ⟨fit, hfit⟩ := exists_fit (p := p) hne fun row hrow => hs row (hsub hrow)
    simp [hfit] at he

end

end Partition

end FairProgram
