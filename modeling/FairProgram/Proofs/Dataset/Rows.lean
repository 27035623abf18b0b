import FairProgram.Dataset
import FairProgram.Proofs.Partition.Observations

/-!
# Rows of a dataset

What rows hold in a column, cell by cell, and what a refinement of one column against another says
about them: its ranges cover the line, each range holds enough of the rows, and each bucket has the
fit of the rows whose conditioning value lies in its range (`refine_divides`).
-/

namespace FairProgram

namespace Dataset

variable {d : Dataset} {column row : Nat} {rows : List Nat} {v : Float}

-- ---------------------------------------------------------------------------
-- Cells
-- ---------------------------------------------------------------------------

def cell? (d : Dataset) (column row : Nat) : Option Float :=
  d.columns[column]?.bind fun c => c.values[row]?

def Finite (d : Dataset) : Prop :=
  ∀ column row v, d.cell? column row = some v → v.isFinite = true

theorem gather_eq (d : Dataset) (column : Nat) (rows : List Nat) :
    d.gather column rows = rows.filterMap (d.cell? column) := by
  unfold gather cell?
  split
  · rename_i h
    simp [h]
  · rename_i h
    simp [h]

theorem filterRows_eq (d : Dataset) (column : Nat) (rows : List Nat) (keep : Float → Bool) :
    d.filterRows column rows keep = rows.filter fun row => (d.cell? column row).any keep := by
  unfold filterRows cell?
  split
  · rename_i h
    simp [h]
  · rename_i h
    simp [h]

theorem exists_cell? (hc : column < d.width) (hr : row < d.rows) :
    ∃ v, d.cell? column row = some v := by
  have hc : column < d.columns.length := hc
  have hlen : row < d.columns[column].values.length := by
    rw [d.length_values _ (List.getElem_mem hc)]
    exact hr
  refine ⟨d.columns[column].values[row], ?_⟩
  rw [cell?, List.getElem?_eq_getElem hc, Option.bind_some, List.getElem?_eq_getElem hlen]

/-- A column whose cells at rows are all there, by the value of each row. -/
theorem gather_eq_map {value : Nat → Float} (h : ∀ row ∈ rows, d.cell? column row = some (value row)) :
    d.gather column rows = rows.map value := by
  rw [gather_eq]
  induction rows with
  | nil => rfl
  | cons row rest ih =>
    rw [List.filterMap_cons, h row List.mem_cons_self, List.map_cons,
      ih fun r hr => h r (List.mem_cons_of_mem _ hr)]

theorem Finite.of_mem_gather (hd : d.Finite) (h : v ∈ d.gather column rows) :
    v.isFinite = true := by
  rw [gather_eq] at h
  obtain ⟨row, -, hv⟩ := List.mem_filterMap.mp h
  exact hd column row v hv

theorem gather_ne_nil (hc : column < d.width) (hr : row ∈ rows) (hlt : row < d.rows) :
    d.gather column rows ≠ [] := by
  obtain ⟨v, hv⟩ := d.exists_cell? hc hlt
  rw [gather_eq]
  exact List.ne_nil_of_mem (List.mem_filterMap.mpr ⟨row, hr, hv⟩)

theorem filterRows_subset {keep : Float → Bool} : d.filterRows column rows keep ⊆ rows := by
  rw [filterRows_eq]
  exact List.filter_subset_self rows

end Dataset

-- ---------------------------------------------------------------------------
-- Refinements
-- ---------------------------------------------------------------------------

/-- A refinement that divides rows of a dataset by one column and fits another. -/
structure Divides (p : Params) (d : Dataset) (rows : List Nat) (column subject : Nat)
    (r : Refinement) : Prop where
  chain : Range.Chain (-1 / 0) (r.buckets.map (·.range)) (1 / 0)
  several : 1 < r.buckets.length
  supported : ∀ b ∈ r.buckets,
    p.Supports (d.filterRows column rows b.range.contains).length rows.length
  fitted : ∀ b ∈ r.buckets,
    Fit.ofValues (d.gather subject (d.filterRows column rows b.range.contains)) p = .ok b.rows.fit

namespace Partition

/-- The rows of two columns given row by row, and those of a range among them. -/
theorem observations?_map (rows : List Nat) (subject conditioning : Nat → Float) :
    ∃ found, observations? (rows.map subject) (rows.map conditioning) = some found ∧
      found.length = rows.length ∧
      (∀ o ∈ found, ∃ row ∈ rows, o.subject = subject row ∧ o.conditioning = conditioning row) ∧
      ∀ range : Range, (rowsIn found range).map (·.subject) =
        (rows.filter fun row => range.contains (conditioning row)).map subject := by
  have hlen : (rows.map subject).length = (rows.map conditioning).length := by simp
  obtain ⟨found, hfound, ho⟩ := observations?_ok hlen
  have hpairs : found.map (fun o => (o.subject, o.conditioning)) =
      rows.map fun row => (subject row, conditioning row) := by
    rw [ho.zip_eq, List.zip_map']
  refine ⟨found, hfound, by simpa using congrArg List.length hpairs, fun o hmem => ?_,
    fun range => ?_⟩
  · have hpair : (o.subject, o.conditioning) ∈
        rows.map fun row => (subject row, conditioning row) := hpairs ▸ List.mem_map_of_mem hmem
    obtain ⟨row, hrow, heq⟩ := List.mem_map.mp hpair
    obtain ⟨hs, hc⟩ := Prod.mk.inj heq
    exact ⟨row, hrow, hs.symm, hc.symm⟩
  · have hfilter := congrArg
      (fun pairs => (pairs.filter fun pair => range.contains pair.2).map (·.1)) hpairs
    simpa [List.filter_map, Function.comp_def, rowsIn] using hfilter

end Partition

section
variable {p : Params} {d : Dataset} {rows : List Nat} {column subject : Nat}

theorem refine_divides (hd : d.Finite) (hr : ∀ row ∈ rows, row < d.rows) (hc : column < d.width)
    (hs : subject < d.width) :
    ∃ result, Partition.refine p (d.gather subject rows) (d.gather column rows) = .ok result ∧
      ∀ r, result = some r → Divides p d rows column subject r := by
  have hcell {column : Nat} (hc : column < d.width) : ∃ value : Nat → Float, ∀ row ∈ rows,
      d.cell? column row = some (value row) ∧ (value row).isFinite = true := by
    refine ⟨fun row => (d.cell? column row).getD 0, fun row hrow => ?_⟩
    obtain ⟨v, hv⟩ := d.exists_cell? hc (hr row hrow)
    exact ⟨by simp [hv], by simpa [hv] using hd column row v hv⟩
  obtain ⟨subjectOf, hsubject⟩ := hcell hs
  obtain ⟨conditionOf, hcondition⟩ := hcell hc
  obtain ⟨found, ho, hlen, hmem, hin⟩ := Partition.observations?_map rows subjectOf conditionOf
  have hfilter (range : Range) : d.filterRows column rows range.contains =
      rows.filter fun row => range.contains (conditionOf row) := by
    rw [Dataset.filterRows_eq]
    exact List.filter_congr fun row hrow => by rw [(hcondition row hrow).1, Option.any_some]
  have hgather (range : Range) : d.gather subject (d.filterRows column rows range.contains) =
      (Partition.rowsIn found range).map (·.subject) := by
    rw [hin, ← hfilter]
    exact Dataset.gather_eq_map fun row hrow => (hsubject row (Dataset.filterRows_subset hrow)).1
  rw [Dataset.gather_eq_map fun row hrow => (hsubject row hrow).1,
    Dataset.gather_eq_map fun row hrow => (hcondition row hrow).1]
  obtain ⟨result, hresult, hspec⟩ := Partition.refine_ok (p := p) ho
    (fun o h => by obtain ⟨row, hrow, hv, -⟩ := hmem o h; exact hv ▸ (hsubject row hrow).2)
    (fun o h => by obtain ⟨row, hrow, -, hv⟩ := hmem o h; exact hv ▸ (hcondition row hrow).2)
  refine ⟨result, hresult, fun r hr => ?_⟩
  obtain ⟨hchain, hseveral, hfit, hsupp⟩ := hspec r hr
  refine ⟨hchain, hseveral, fun b hb => ?_, fun b hb => ?_⟩
  · have hsize := congrArg List.length (hin b.range)
    rw [List.length_map, List.length_map] at hsize
    rw [hfilter, ← hsize, ← hlen]
    exact hsupp b hb
  · rw [hgather]
    exact (hfit b hb).2

end

end FairProgram
