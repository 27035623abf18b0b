import FairProgram.Population.Checked
import FairProgram.Proofs.Partition.Capacity
import FairProgram.Proofs.Population.Shape

/-!
# Compilation never falls back

Compilation as it runs stops wherever the other one passes over a failure. It never stops for a
failure, and for sizes only where a step fit or the search of a second column asks for more than a
list can hold (`Oversized`): then it has no answer, and otherwise it grows the same forest
(`checkedForest_eq`). Compilation refuses what fails a check, by the first check in order, and nothing
else (`checkedCompile_total`).
-/

namespace FairProgram

open Whole

namespace Population

-- ---------------------------------------------------------------------------
-- No step fails
-- ---------------------------------------------------------------------------

section
variable {bound : Nat} {branches : List (Branch Node)}

theorem columnSet?_eq {branch : Branch Node} (h : ∀ c ∈ branch.columns, c < bound) :
    branch.columnSet? bound = some (branch.columnSet bound) := by
  rw [Branch.columnSet?, ColumnSet.extend_eq _ h]
  rfl

theorem commonColumns?_eq (h : ∀ branch ∈ branches, ∀ c ∈ branch.columns, c < bound) :
    commonColumns? bound branches = some (commonColumns bound branches) := by
  cases branches with
  | nil => rfl
  | cons first rest =>
    rw [commonColumns?, columnSet?_eq (h first List.mem_cons_self)]
    refine foldlM_eq_pure (I := fun _ => True) trivial fun branch hb shared _ => ⟨?_, trivial⟩
    rw [columnSet?_eq (h branch (List.mem_cons_of_mem _ hb)), Option.map_some]
    rfl

theorem agree?_eq (h : ∀ branch ∈ branches, ∀ c ∈ branch.columns, c < bound) :
    agree? bound branches = some (agree bound branches) := by
  induction branches using agree.induct bound with
  | case1 branches shared hall =>
    rw [agree?, commonColumns?_eq h, agree, if_pos hall]
    exact if_pos hall
  | case2 branches shared kept hall ih =>
    rw [agree?, commonColumns?_eq h, agree, if_neg hall]
    refine (if_neg hall).trans (ih ?_)
    have hkept : kept = branches.map (Branch.restrict shared.contains) :=
      Node.restrictBranches_eq _ branches
    intro branch hb c hc
    rw [hkept] at hb
    obtain ⟨original, ho, rfl⟩ := List.mem_map.mp hb
    exact h original ho c (original.columns_restrict_subset hc)

end

theorem mem_zipIdx_drop {α : Type} {l : List α} {a : α} {first i : Nat}
    (h : (a, i) ∈ l.zipIdx.drop first) : l[i]? = some a ∧ first ≤ i := by
  refine ⟨List.mk_mem_zipIdx_iff_getElem?.mp (List.mem_of_mem_drop h), ?_⟩
  obtain ⟨j, hj, heq⟩ := List.mem_iff_getElem.mp h
  rw [List.getElem_drop, List.getElem_zipIdx] at heq
  cases heq
  omega

section
variable {p : Params} {d : Dataset} {rows : List Nat} {column : Nat}

theorem gather?_eq (hc : column < d.width) (hr : ∀ row ∈ rows, row < d.rows) :
    d.gather? column rows = some (d.gather column rows) := by
  simpa [Dataset.gather?, Dataset.covers, hc] using hr

theorem filterRows?_eq {keep : Float → Bool} (hc : column < d.width)
    (hr : ∀ row ∈ rows, row < d.rows) :
    d.filterRows? column rows keep = some (d.filterRows column rows keep) := by
  simpa [Dataset.filterRows?, Dataset.covers, hc] using hr

theorem length_gather_le : (d.gather column rows).length ≤ rows.length := by
  rw [Dataset.gather_eq]
  exact List.length_filterMap_le _ _

theorem length_gather_allRows (hc : column < d.width) :
    (d.gather column d.allRows).length = d.rows := by
  have hcell : ∀ row ∈ d.allRows, d.cell? column row = some ((d.cell? column row).getD 0) := by
    intro row hrow
    obtain ⟨v, hv⟩ := d.exists_cell? hc (List.mem_range.mp hrow)
    rw [hv, Option.getD_some]
  rw [Dataset.gather_eq_map hcell, List.length_map, Dataset.allRows, List.length_range]

/-- Refinements of as many rows as there are do not ask for more than can be held. -/
def SearchFits (p : Params) (d : Dataset) : Prop :=
  2 ≤ d.width → p.maxCuts = 0 ∨ p.HasRoom d.rows

theorem checkedRefine_gather (hbuckets : p.maxStepBuckets ≤ maxDoubles) (hsearch : SearchFits p d)
    (hwidth : 2 ≤ d.width) (hlen : rows.length ≤ d.rows) (column : Nat)
    (conditioning : List Float) :
    Partition.checkedRefine p (d.gather column rows) conditioning =
      Partition.refine p (d.gather column rows) conditioning :=
  Partition.checkedRefine_eq
    ((hsearch hwidth).imp_right fun h => h.mono (length_gather_le.trans hlen)) hbuckets

theorem checkedAttach_eq (hd : d.Finite) {levels : Nat} {first growth : Growth} {subject : Column}
    {index : Nat} {refinement : Refinement} (hlen : rows.length ≤ d.rows)
    (ih : ∀ {rows first}, rows.length ≤ d.rows → Start p d rows first →
      checkedGrow p d levels rows first = .ok (grow p d levels rows first))
    (h : Attaches p d rows first growth subject index refinement) :
    checkedAttach d (checkedGrow p d levels) rows growth (subject, index) refinement =
      .ok (attach d (grow p d levels) rows growth (subject, index) refinement) := by
  have hsprouts : checkedSprouts d (checkedGrow p d levels) rows growth
      (growth.modelled.insert index) (subject, index) refinement =
        .ok (sprouts d (grow p d levels) rows growth (subject, index) refinement) := by
    refine mapM_eq_pure_map fun bucket hb => ?_
    have hfewer : (d.filterRows growth.node.column rows bucket.range.contains).length ≤ d.rows := by
      rw [Dataset.filterRows_eq]
      exact (List.length_filter_le _ _).trans hlen
    have hgrow := ih hfewer (h.start_sprout hb)
    simp only [sprout] at hgrow
    rw [filterRows?_eq (h.column_eq ▸ h.begun.column_lt) h.begun.rows_lt]
    simp only [asserted, bind, Except.bind, hgrow]
  have hcolumns : ∀ branch ∈ sprouts d (grow p d levels) rows growth (subject, index) refinement,
      ∀ c ∈ branch.columns, c < d.width := by
    intro branch hb c hc
    obtain ⟨bucket, hbucket, rfl⟩ := List.mem_map.mp hb
    obtain ⟨node, hn, hc⟩ := Branch.mem_columns.mp hc
    obtain rfl := List.mem_singleton.mp hn
    exact (grow_shaped hd levels (h.start_sprout hbucket)).shaped.lt_width hc
  rw [checkedAttach, ColumnSet.insert?_eq (h.bound ▸ h.index_lt)]
  simp only [asserted, bind, Except.bind, hsprouts, agree?_eq hcolumns]
  rfl

theorem checkedGrow_eq (hd : d.Finite) (hbuckets : p.maxStepBuckets ≤ maxDoubles)
    (hsearch : SearchFits p d) (levels : Nat) {first : Growth} (hlen : rows.length ≤ d.rows)
    (hs : Start p d rows first) :
    checkedGrow p d levels rows first = .ok (grow p d levels rows first) := by
  induction levels generalizing rows first with
  | zero => rfl
  | succ levels ih =>
    rw [checkedGrow, gather?_eq hs.column_lt hs.rows_lt]
    refine foldlM_eq_pure (I := fun growth => growth.node.column = first.node.column ∧
      growth.modelled.bound = d.width) ⟨rfl, hs.bound⟩ ?_
    rintro ⟨subject, index⟩ hmem growth ⟨hcolumn, hbound⟩
    obtain ⟨hsubject, hlater⟩ := mem_zipIdx_drop hmem
    have hindex := (List.getElem?_eq_some_iff.mp hsubject).1
    have hgather := gather?_eq hindex hs.rows_lt
    have hwidth : 2 ≤ d.width := (Nat.succ_le_succ (Nat.zero_lt_of_lt hlater)).trans hindex
    have hrefine := checkedRefine_gather hbuckets hsearch hwidth hlen index
    obtain hm | ⟨hfresh, hnone⟩ | ⟨refinement, ha⟩ :=
      visit_cases (p := p) hd hs hcolumn hbound hsubject hlater
    · rw [visit_of_modelled hm]
      exact ⟨if_pos hm, hcolumn, hbound⟩
    · rw [visit_of_uncut hnone, checkedVisit, hfresh, hgather]
      simp only [asserted, bind, Except.bind, hrefine, hnone]
      exact ⟨rfl, hcolumn, hbound⟩
    · rw [ha.visit_eq, checkedVisit, ha.fresh, hgather]
      simp only [asserted, bind, Except.bind, hrefine, ← hcolumn, ha.refined]
      exact ⟨checkedAttach_eq hd hlen ih ha, column_attach, bound_attach.trans hbound⟩

theorem length_allRows : d.allRows.length = d.rows :=
  List.length_range

theorem checkedForest_eq (hd : d.Finite) (hr : d.rows ≠ 0)
    (hbuckets : p.maxStepBuckets ≤ maxDoubles) (hsearch : SearchFits p d) :
    checkedForest p d = .ok (forest p d) := by
  refine foldlM_eq_pure (I := fun forest => forest.modelled.bound = d.width) rfl ?_
  rintro ⟨column, index⟩ hmem forest hbound
  have hcolumn := List.mk_mem_zipIdx_iff_getElem?.mp hmem
  have hindex : index < d.width := (List.getElem?_eq_some_iff.mp hcolumn).1
  rw [checkedPlant, plant]
  obtain hm | ⟨fit, hfresh, hfit, hs⟩ := plant_cases (p := p) hd hr hbound hcolumn
  · rw [if_pos hm, if_pos hm]
    exact ⟨rfl, hbound⟩
  · rw [if_neg (Bool.eq_false_iff.mp hfresh), if_neg (Bool.eq_false_iff.mp hfresh), hfit,
      gather?_eq hindex hs.rows_lt]
    simp only [asserted, bind, Except.bind, Fit.ofValues?_eq_some hbuckets, hfit,
      ColumnSet.insert?_eq (hbound ▸ hindex),
      checkedGrow_eq hd hbuckets hsearch p.maxDepth length_allRows.le hs]
    exact ⟨trivial, bound_grow hd p.maxDepth hs⟩

end

-- ---------------------------------------------------------------------------
-- Sizes
-- ---------------------------------------------------------------------------

/-- What compilation asks for is more than a list can hold: for the buckets of its first fit, or for
the bins or thresholds of its first search, which takes a second column. -/
inductive Oversized (p : Params) (d : Dataset) : Prop
  | buckets : maxDoubles < p.maxStepBuckets → Oversized p d
  | bins : 2 ≤ d.width → p.maxCuts ≠ 0 → maxDoubles ≤ p.entropyBins → Oversized p d
  | thresholds : 2 ≤ d.width → 2 ≤ d.rows → p.maxCuts ≠ 0 →
      maxDoubles < p.candidateThresholds → Oversized p d

section
variable {p : Params} {d : Dataset}

theorem oversized_iff :
    Oversized p d ↔ maxDoubles < p.maxStepBuckets ∨ ¬ SearchFits p d := by
  rw [SearchFits, Classical.not_imp, not_or]
  constructor
  · rintro (hbuckets | ⟨hwidth, hcuts, hbins⟩ | ⟨hwidth, hrows, hcuts, hthresholds⟩)
    · exact .inl hbuckets
    · exact .inr ⟨hwidth, hcuts, fun h => Nat.not_lt.mpr hbins h.bins⟩
    · exact .inr ⟨hwidth, hcuts, fun h => Nat.not_lt.mpr (h.thresholds hrows) hthresholds⟩
  · rintro (hbuckets | ⟨hwidth, hcuts, hroom⟩)
    · exact .buckets hbuckets
    · by_cases hbins : p.entropyBins < maxDoubles
      · obtain ⟨hrows, hthresholds⟩ := Classical.not_imp.mp fun h => hroom ⟨hbins, h⟩
        exact .thresholds hwidth hrows hcuts (Nat.not_le.mp hthresholds)
      · exact .bins hwidth hcuts (Nat.not_lt.mp hbins)

/-- Growing the first column stops at the search of the second one. -/
theorem checkedGrow_eq_error (levels : Nat) {first : Growth} (hs : Start p d d.allRows first)
    (hcolumn : first.node.column = 0) (hfresh : first.modelled.contains 1 = false)
    (h : ¬ SearchFits p d) : checkedGrow p d (levels + 1) d.allRows first = .error .capacity := by
  obtain ⟨hwidth, hno⟩ := Classical.not_imp.mp h
  obtain ⟨hcuts, hroom⟩ := not_or.mp hno
  obtain ⟨zeroth, second, rest, hcolumns⟩ : ∃ zeroth second rest,
      d.columns = zeroth :: second :: rest := by
    match hcolumns : d.columns with
    | [] | [_] => simp [Dataset.width, hcolumns] at hwidth
    | zeroth :: second :: rest => exact ⟨zeroth, second, rest, rfl⟩
  have hlength (column : Nat) (hlt : column < 2) :=
    length_gather_allRows (d := d) (hlt.trans_le hwidth)
  have hrefine : Partition.checkedRefine p (d.gather 1 d.allRows) (d.gather 0 d.allRows) =
      .error .capacity :=
    Partition.checkedRefine_eq_error ((hlength 1 (by decide)).trans (hlength 0 (by decide)).symm)
      hcuts ((hlength 1 (by decide)).symm ▸ hroom)
  rw [checkedGrow, hcolumn, gather?_eq (Nat.zero_lt_of_lt hwidth) hs.rows_lt, hcolumns]
  simp only [asserted, bind, Except.bind]
  rw [List.zipIdx_cons, List.zipIdx_cons, List.drop_succ_cons, List.drop_zero, List.foldlM_cons,
    checkedVisit, hfresh, gather?_eq hwidth hs.rows_lt]
  simp only [asserted, bind, Except.bind, hrefine]
  rfl

theorem checkedForest_eq_error (hd : d.Finite) (hr : d.rows ≠ 0) (hdepth : p.maxDepth ≠ 0)
    (h : Oversized p d) : checkedForest p d = .error .capacity := by
  obtain ⟨column, rest, hcolumns⟩ := List.exists_cons_of_ne_nil d.columns_ne_nil
  obtain ⟨levels, hlevels⟩ := Nat.exists_eq_succ_of_ne_zero hdepth
  have hcolumn : d.columns[0]? = some column := by rw [hcolumns]; rfl
  have hwidth : 0 < d.width := List.length_pos_iff.mpr d.columns_ne_nil
  have hplant : checkedPlant p d ⟨[], .empty d.width⟩ (column, 0) = .error .capacity := by
    have hbound : (⟨[], .empty d.width⟩ : Forest).modelled.bound = d.width := rfl
    obtain hm | ⟨fit, hfresh, hfit, hs⟩ := plant_cases (p := p) hd hr hbound hcolumn
    · simp at hm
    · rw [checkedPlant, if_neg (Bool.eq_false_iff.mp hfresh), gather?_eq hwidth hs.rows_lt]
      by_cases hbuckets : maxDoubles < p.maxStepBuckets
      · have hne : d.gather 0 d.allRows ≠ [] :=
          Dataset.gather_ne_nil hwidth (List.mem_range.mpr (Nat.pos_of_ne_zero hr))
            (Nat.pos_of_ne_zero hr)
        simp only [asserted, bind, Except.bind,
          Fit.ofValues?_eq_none hne (fun v hv => hd.of_mem_gather hv) hbuckets]
        rfl
      · have hnext : ((ColumnSet.empty d.width).insert 0).contains 1 = false := by
          rw [ColumnSet.contains_insert hwidth]
          simp
        have hgrow := checkedGrow_eq_error levels hs rfl hnext
          ((oversized_iff.mp h).resolve_left hbuckets)
        simp only [asserted, bind, Except.bind, Fit.ofValues?_eq_some (Nat.not_lt.mp hbuckets), hfit,
          ColumnSet.insert?_eq (s := .empty d.width) hwidth, hlevels, hgrow]
  rw [checkedForest, hcolumns, List.zipIdx_cons, List.foldlM_cons, hplant]
  rfl

end

-- ---------------------------------------------------------------------------
-- Refusals
-- ---------------------------------------------------------------------------

/-- The first cell, column after column, whose value is not finite. -/
structure FirstNonFinite (d : Dataset) (column row : Nat) (v : Float) : Prop where
  cell : d.cell? column row = some v
  not_finite : v.isFinite = false
  first : ∀ column' row' v', d.cell? column' row' = some v' → v'.isFinite = false →
    column < column' ∨ column = column' ∧ row ≤ row'

/-- Why compilation refuses its input, by the first check that fails. -/
inductive Refused (p : Params) (d : Dataset) : ModelError → Prop
  | params {e : ParamsError} : p.validate = .error e → Refused p d (.params e)
  | noRows : p.validate = .ok () → d.rows = 0 → Refused p d .noRows
  | nonFinite {column row : Nat} {c : Column} {v : Float} :
      p.validate = .ok () → d.rows ≠ 0 → d.columns[column]? = some c →
      FirstNonFinite d column row v → Refused p d (.nonFinite c.name v row)

section
variable {p : Params} {d : Dataset} {m : PopulationModel} {e : ModelError}

theorem FirstNonFinite.unique {column row column' row' : Nat} {v v' : Float}
    (h : FirstNonFinite d column row v) (h' : FirstNonFinite d column' row' v') :
    column = column' ∧ row = row' ∧ v = v' := by
  obtain ⟨rfl, rfl⟩ : column = column' ∧ row = row' := by
    have hle := h.first _ _ _ h'.cell h'.not_finite
    have hge := h'.first _ _ _ h.cell h.not_finite
    omega
  exact ⟨rfl, rfl, Option.some.inj (h.cell.symm.trans h'.cell)⟩

theorem firstNonFinite?_ok (h : firstNonFinite? d = some e) : ∃ column row c v,
    d.columns[column]? = some c ∧ FirstNonFinite d column row v ∧ e = .nonFinite c.name v row := by
  obtain ⟨before, c, after, hcolumns, hc, hbefore⟩ := List.findSome?_eq_some_iff.mp h
  obtain ⟨⟨v, row⟩, hfound, rfl⟩ := Option.map_eq_some_iff.mp hc
  obtain ⟨hcell, hnot, hfirst⟩ := Fit.firstNonFinite?_ok hfound
  have hcolumn : d.columns[before.length]? = some c := by simp [hcolumns]
  refine ⟨before.length, row, c, v, hcolumn, ⟨?_, hnot, ?_⟩, rfl⟩
  · rw [Dataset.cell?, hcolumn, Option.bind_some, hcell]
  · intro column' row' v' hcell' hnot'
    obtain ⟨c', hcolumn', hrow'⟩ := Option.bind_eq_some_iff.mp hcell'
    obtain hlt | rfl | hlt := Nat.lt_trichotomy before.length column'
    · exact .inl hlt
    · rw [hcolumn] at hcolumn'
      cases hcolumn'
      exact .inr ⟨rfl, hfirst row' v' hrow' hnot'⟩
    · rw [hcolumns, List.getElem?_append_left hlt] at hcolumn'
      have hnone := Option.map_eq_none_iff.mp (hbefore c' (List.mem_of_getElem? hcolumn'))
      have hfinite := Fit.firstNonFinite?_eq_none_iff.mp hnone v' (List.mem_of_getElem? hrow')
      rw [hnot'] at hfinite
      cases hfinite

theorem compile_eq_error_iff : compile p d = .error e ↔ Refused p d e := by
  constructor
  · intro h
    rw [compile] at h
    split at h
    · rename_i hparams
      cases h
      exact .params hparams
    · rename_i hvalid
      split at h
      · rename_i hrows
        cases h
        exact .noRows hvalid hrows
      · rename_i hrows
        split at h
        · rename_i hfound
          cases h
          obtain ⟨column, row, c, v, hcolumn, hfirst, rfl⟩ := firstNonFinite?_ok hfound
          exact .nonFinite hvalid hrows hcolumn hfirst
        · cases h
  · intro h
    cases h with
    | params h => rw [compile, h]
    | noRows hvalid hrows =>
      rw [compile, hvalid]
      exact if_pos hrows
    | @nonFinite column row c v hvalid hrows hcolumn hfirst =>
      rw [compile, hvalid]
      refine (if_neg hrows).trans ?_
      cases hfound : firstNonFinite? d with
      | none =>
        have hfinite := firstNonFinite?_eq_none_iff.mp hfound column row v hfirst.cell
        rw [hfirst.not_finite] at hfinite
        cases hfinite
      | some e =>
        obtain ⟨column', row', c', v', hcolumn', hfirst', rfl⟩ := firstNonFinite?_ok hfound
        obtain ⟨rfl, rfl, rfl⟩ := hfirst.unique hfirst'
        rw [hcolumn] at hcolumn'
        cases hcolumn'
        rfl

theorem exists_compile_of_not_refused (h : ¬ ∃ e, Refused p d e) : ∃ m, compile p d = .ok m := by
  cases hcompile : compile p d with
  | ok m => exact ⟨m, rfl⟩
  | error e => exact absurd ⟨e, compile_eq_error_iff.mp hcompile⟩ h

theorem checkedCompile_eq_error_iff :
    checkedCompile p d = .ok (.error e) ↔ compile p d = .error e := by
  rw [checkedCompile, compile]
  cases p.validate with
  | error e => simp
  | ok _ =>
    dsimp only
    split
    · simp
    · cases firstNonFinite? d with
      | some e => simp
      | none => cases checkedForest p d <;> simp [bind, Except.bind, pure, Except.pure]

theorem checkedCompile_eq (hvalid : p.validate = .ok ()) (hr : d.rows ≠ 0) (hd : d.Finite) :
    checkedCompile p d = (checkedForest p d).map fun forest => .ok ⟨d.names, forest.roots⟩ := by
  rw [checkedCompile, hvalid]
  dsimp only
  rw [if_neg hr, firstNonFinite?_eq_none_iff.mpr hd]
  cases checkedForest p d <;> rfl

theorem maxDepth_ne_zero (h : p.validate = .ok ()) : p.maxDepth ≠ 0 := by
  intro hzero
  simp only [Params.validate, hzero, if_true] at h
  repeat' split at h
  all_goals cases h

/-- Compilation refuses its input exactly by a check, the first that fails. What it accepts has a
model, in which every column has a place, as long as nothing that it asks for is more than a list can
hold; no step on the way falls back or fails an assertion, which would stop it. -/
theorem checkedCompile_total (p : Params) (d : Dataset) :
    (∀ e, checkedCompile p d = .ok (.error e) ↔ Refused p d e) ∧
    ((¬ ∃ e, Refused p d e) → Oversized p d → checkedCompile p d = .error .capacity) ∧
    ((¬ ∃ e, Refused p d e) → ¬ Oversized p d →
      ∃ m, checkedCompile p d = .ok (.ok m) ∧ compile p d = .ok m ∧
        ∀ c < d.width, ∃ root ∈ m.roots, c ∈ root.columns) ∧
    ∀ values extra, StepFit.ofProbabilities? (Stats.Histogram.equalWidth values (extra + 1)).edges
        ((Stats.Histogram.equalWidth values (extra + 1)).shares values.length) p.decimalPlaces =
      some (StepFit.ofValues values extra p.decimalPlaces) := by
  refine ⟨fun e => checkedCompile_eq_error_iff.trans compile_eq_error_iff, fun hno hlarge => ?_,
    fun hno hfits => ?_, fun values extra => ?_⟩
  · obtain ⟨m, hm⟩ := exists_compile_of_not_refused hno
    obtain ⟨hvalid, hr, hd, -⟩ := compile_eq_ok_iff.mp hm
    rw [checkedCompile_eq hvalid hr hd, checkedForest_eq_error hd hr (maxDepth_ne_zero hvalid) hlarge]
    rfl
  · obtain ⟨m, hm⟩ := exists_compile_of_not_refused hno
    obtain ⟨hvalid, hr, hd, rfl⟩ := compile_eq_ok_iff.mp hm
    obtain ⟨hbuckets, hsearch⟩ := not_or.mp (mt oversized_iff.mpr hfits)
    refine ⟨_, ?_, hm, fun c hc => ((compile_shaped hm).modelled c).mp ((compile_shaped hm).complete c hc)⟩
    rw [checkedCompile_eq hvalid hr hd,
      checkedForest_eq hd hr (Nat.not_lt.mp hbuckets) (Classical.not_not.mp hsearch)]
    rfl
  · have hlength : ((Stats.Histogram.equalWidth values (extra + 1)).shares values.length).length =
        extra + 1 := by simp
    have hedges := Stats.Histogram.length_edges_equalWidth values (extra + 1)
    exact dif_pos ⟨List.ne_nil_of_length_eq_add_one hlength, by rw [hedges, hlength]⟩

theorem checkedCompile_total_apart : ¬ Oversized Partition.oneCut apart ∧
    ∃ m root, checkedCompile Partition.oneCut apart = .ok (.ok m) ∧
      compile Partition.oneCut apart = .ok m ∧ m.roots = [root] ∧ IsFork root ∧
      ∀ c < 3, ∃ root ∈ m.roots, c ∈ root.columns := by
  obtain ⟨m, root, h, hroots, hfork⟩ := exists_compile_apart
  have hno : ¬ ∃ e, Refused Partition.oneCut apart e := by
    rintro ⟨e, he⟩
    rw [compile_eq_error_iff.mpr he] at h
    cases h
  have hfits : ¬ Oversized Partition.oneCut apart := by
    rintro (hbuckets | ⟨-, -, hbins⟩ | ⟨-, -, -, hthresholds⟩)
    · exact absurd hbuckets (by decide)
    · exact absurd hbins (by decide)
    · exact absurd hthresholds (by decide)
  obtain ⟨m', hm', hm, hcolumns⟩ := (checkedCompile_total Partition.oneCut apart).2.2.1 hno hfits
  obtain rfl : m' = m := Except.ok.inj (hm.symm.trans h)
  exact ⟨hfits, m', root, hm', hm, hroots, hfork, hcolumns⟩

/-- Two columns of equal values. -/
def constants : Dataset where
  columns := [⟨"a", [1, 1]⟩, ⟨"b", [2, 2]⟩]
  rows := 2
  columns_ne_nil := List.cons_ne_nil _ _
  length_values := by decide
  names_nodup := by decide

/-- Nothing is wrong with the input, and compiling it has no answer all the same. -/
theorem checkedCompile_constants_no_answer :
    (¬ ∃ e, Refused tooManyThresholds constants e) ∧
    ¬ ∃ result, checkedCompile tooManyThresholds constants = .ok result := by
  have hvalid : tooManyThresholds.validate = .ok () := rfl
  have hfinite : constants.Finite := firstNonFinite?_eq_none_iff.mp rfl
  have hlarge : Oversized tooManyThresholds constants :=
    .thresholds (by decide) (by decide) (by decide) (by decide)
  refine ⟨?_, ?_⟩
  · rintro ⟨e, he⟩
    rw [← compile_eq_error_iff, compile_eq_ok_iff.mpr ⟨hvalid, by decide, hfinite, rfl⟩] at he
    cases he
  · rintro ⟨result, h⟩
    rw [checkedCompile_eq hvalid (by decide) hfinite,
      checkedForest_eq_error hfinite (by decide) (by decide) hlarge] at h
    cases h

end

end Population

end FairProgram
