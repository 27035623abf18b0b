import FairProgram.Population.Agreement
import FairProgram.Proofs.Population.Tree

/-!
# What agreement keeps

Agreement is a sequence of restrictions, each to the columns that all branches model at that point.
It has what every such restriction keeps (`agree_induction`), and its branches all model one set of
columns, which it returns with them (`mem_columns_of_mem_agree`).
-/

namespace FairProgram

theorem Branch.bound_columnSet (bound : Nat) (branch : Branch Node) :
    (branch.columnSet bound).bound = bound := by
  simp [Branch.columnSet]

theorem Branch.contains_columnSet {bound c : Nat} {branch : Branch Node} :
    (branch.columnSet bound).contains c = true ↔ c ∈ branch.columns ∧ c < bound := by
  simp [Branch.columnSet, ColumnSet.contains_insertAll]

namespace Population

variable {bound c : Nat} {branches : List (Branch Node)}

-- ---------------------------------------------------------------------------
-- Common columns
-- ---------------------------------------------------------------------------

private theorem inter_ok {s : ColumnSet} (hs : s.bound = bound) (rest : List (Branch Node)) :
    (rest.foldl (fun shared branch => shared.inter (branch.columnSet bound)) s).bound = bound ∧
      ∀ c, (rest.foldl (fun shared branch => shared.inter (branch.columnSet bound)) s).contains c
        = true ↔ s.contains c = true ∧ ∀ branch ∈ rest, c ∈ branch.columns := by
  induction rest generalizing s with
  | nil => simp [hs]
  | cons branch rest ih =>
    obtain ⟨hb, hc⟩ := ih (s := s.inter (branch.columnSet bound)) hs
    refine ⟨hb, fun c => (hc c).trans ?_⟩
    rw [ColumnSet.contains_inter (hs.trans (branch.bound_columnSet bound).symm),
      Bool.and_eq_true, Branch.contains_columnSet, List.forall_mem_cons]
    constructor
    · rintro ⟨⟨h, hf, -⟩, hr⟩
      exact ⟨h, hf, hr⟩
    · rintro ⟨h, hf, hr⟩
      exact ⟨⟨h, hf, hs ▸ ColumnSet.lt_bound_of_contains h⟩, hr⟩

theorem bound_commonColumns (bound : Nat) (branches : List (Branch Node)) :
    (commonColumns bound branches).bound = bound := by
  cases branches with
  | nil => rfl
  | cons first rest => exact (inter_ok (first.bound_columnSet bound) rest).1

theorem contains_commonColumns (hne : branches ≠ []) :
    (commonColumns bound branches).contains c = true ↔
      c < bound ∧ ∀ branch ∈ branches, c ∈ branch.columns := by
  cases branches with
  | nil => exact absurd rfl hne
  | cons first rest =>
    rw [commonColumns, (inter_ok (first.bound_columnSet bound) rest).2,
      Branch.contains_columnSet, List.forall_mem_cons]
    constructor
    · rintro ⟨⟨hf, hb⟩, hr⟩
      exact ⟨hb, hf, hr⟩
    · rintro ⟨hb, hf, hr⟩
      exact ⟨⟨hf, hb⟩, hr⟩

-- ---------------------------------------------------------------------------
-- Agreement
-- ---------------------------------------------------------------------------

section
variable (bound : Nat) (P : List (Branch Node) → Prop)

/-- Agreement restricts a last time branches whose columns are all common, with the property that
every restriction to the common columns keeps. -/
theorem agree_ok (h : P branches) (step : ∀ branches, P branches →
      P (branches.map (Branch.restrict (commonColumns bound branches).contains))) :
    ∃ last, P last ∧ (∀ branch ∈ last, ∀ c ∈ branch.columns,
        (commonColumns bound last).contains c = true) ∧
      agree bound branches =
        (last.map (Branch.restrict (commonColumns bound last).contains),
          commonColumns bound last) := by
  induction branches using agree.induct bound with
  | case1 branches shared hall =>
    refine ⟨branches, h, fun branch hb c hc => ?_, ?_⟩
    · exact List.all_eq_true.mp hall c (Node.mem_branchColumns.mpr ⟨branch, hb, hc⟩)
    · rw [agree, if_pos hall, Node.restrictBranches_eq]
  | case2 branches shared kept hall ih =>
    rw [agree, if_neg hall]
    refine ih ?_
    show P (Node.restrictBranches _ branches)
    rw [Node.restrictBranches_eq]
    exact step branches h

variable {bound} in
theorem agree_induction (h : P branches) (step : ∀ branches, P branches →
      P (branches.map (Branch.restrict (commonColumns bound branches).contains))) :
    P (agree bound branches).1 := by
  obtain ⟨last, hlast, -, heq⟩ := agree_ok bound P h step
  rw [heq]
  exact step last hlast

end

theorem bound_agree (bound : Nat) (branches : List (Branch Node)) :
    (agree bound branches).2.bound = bound := by
  induction branches using agree.induct bound with
  | case1 branches shared hall =>
    rw [agree, if_pos hall]
    exact bound_commonColumns bound branches
  | case2 branches shared kept hall ih =>
    rw [agree, if_neg hall]
    exact ih

theorem restrict_filled {keep : Nat → Bool} :
    ∀ branch ∈ branches.map (Branch.restrict keep), ∀ node ∈ branch.nodes, node.Filled := by
  intro branch hb node hn
  obtain ⟨original, -, rfl⟩ := List.mem_map.mp hb
  obtain ⟨node, -, -, rfl⟩ := Node.mem_restrictNodes.mp hn
  exact node.filled_restrict

/-- The branches that agreement returns model the columns that it returns, and no others. -/
theorem mem_columns_of_mem_agree (bound : Nat) (hne : branches ≠ [])
    (hf : ∀ branch ∈ branches, ∀ node ∈ branch.nodes, node.Filled) :
    ∀ branch ∈ (agree bound branches).1, ∀ c,
      c ∈ branch.columns ↔ (agree bound branches).2.contains c = true := by
  obtain ⟨last, ⟨hne, hf⟩, hall, heq⟩ := agree_ok bound
    (fun branches => branches ≠ [] ∧ ∀ branch ∈ branches, ∀ node ∈ branch.nodes, node.Filled)
    ⟨hne, hf⟩ fun branches h => ⟨by simpa using h.1, restrict_filled⟩
  have hsame : last.map (Branch.restrict (commonColumns bound last).contains) = last := by
    refine (List.map_congr_left fun branch hb => ?_).trans (List.map_id' last)
    exact Branch.restrict_eq_self (hf branch hb) (hall branch hb)
  rw [heq, hsame]
  intro branch hb c
  exact ⟨hall branch hb c, fun h => ((contains_commonColumns hne).mp h).2 branch hb⟩

end Population

end FairProgram
