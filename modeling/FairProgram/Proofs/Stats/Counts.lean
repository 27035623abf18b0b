import FairProgram.Stats.Histogram
import Mathlib

/-!
# Counts of a histogram

Which bin a value is counted in depends on the value and the edges alone. In any arithmetic the
counts of values taken in two parts therefore add up to those of the whole
(`counts_ofEdges_append`), in whatever order the values come (`ofEdges_perm`), and no value is
counted twice (`size_ofEdges_le`).
-/

namespace FairProgram.Stats.Histogram

theorem countP_lt_succ (located : List Nat) (bins : Nat) :
    located.countP (fun bin => bin < bins + 1) =
      located.countP (fun bin => bin < bins) + located.count bins := by
  induction located with
  | nil => rfl
  | cons first rest ih =>
    simp only [List.countP_cons, List.count_cons, ih, decide_eq_true_eq, beq_iff_eq]
    split_ifs <;> omega

theorem sum_count_eq (located : List Nat) (bins : Nat) :
    Whole.sum ((List.range bins).map fun bin => located.count bin) =
      located.countP fun bin => bin < bins := by
  induction bins with
  | zero => simp
  | succ bins ih =>
    rw [List.range_succ, List.map_append, Whole.sum_append, ih, countP_lt_succ]
    rfl

section
variable {α : Type} [Scalar α] [Sub α] [Mul α] [Div α] [LT α] [LE α] [DecidableLT α] [DecidableLE α]
  {values : List α} {edges : List α}

theorem edges_ofEdges (values edges : List α) : (ofEdges values edges).edges = edges := rfl

theorem size_ofEdges (values edges : List α) : (ofEdges values edges).size =
    (values.filterMap (bin? edges)).countP fun bin => bin < edges.length - 1 :=
  sum_count_eq _ _

/-- Every value is counted in one bin at most. -/
theorem size_ofEdges_le (values edges : List α) :
    (ofEdges values edges).size ≤ values.length := by
  rw [size_ofEdges]
  exact List.countP_le_length.trans (List.length_filterMap_le _ _)

theorem size_ofEdges_eq
    (h : ∀ v ∈ values, ∃ bin, bin? edges v = some bin ∧ bin < edges.length - 1) :
    (ofEdges values edges).size = values.length := by
  rw [size_ofEdges, List.countP_filterMap, List.countP_eq_length]
  intro v hv
  obtain ⟨bin, hbin, hlt⟩ := h v hv
  rw [hbin]
  exact decide_eq_true hlt

theorem counts_ofEdges_append (first second edges : List α) :
    (ofEdges (first ++ second) edges).counts =
      List.zipWith (· + ·) (ofEdges first edges).counts (ofEdges second edges).counts := by
  simp only [ofEdges, List.filterMap_append, List.count_append, List.zipWith_map,
    List.zipWith_self]

theorem ofEdges_perm {values' : List α} (h : values.Perm values') (edges : List α) :
    ofEdges values edges = ofEdges values' edges := by
  have hcount := (h.filterMap (bin? edges)).count_eq
  simp only [ofEdges, hcount]

end

end FairProgram.Stats.Histogram
