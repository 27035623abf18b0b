import FairProgram.Proofs.Population.ColumnSets
import FairProgram.Proofs.Population.Coverage
import FairProgram.Proofs.Population.Totality

/-!
# The greatest agreement

Two restrictions are one, to the columns that both keep, and a restriction to more columns leaves
more of them. So the rounds of an agreement add up to a single restriction of the branches that it
starts from, and no round drops a column of a set that the branches can be cut down to: agreement
cuts them down to the greatest such set, and finds nothing to drop in what it returns
(`agree_greatest`).
-/

namespace FairProgram

-- ---------------------------------------------------------------------------
-- Restrictions of restrictions
-- ---------------------------------------------------------------------------

/-- A partition stays where a node is kept on each of its branches. -/
theorem Partitioning.filled_restrict {keep : Nat → Bool} {partition : Partitioning Node} :
    (partition.restrict keep).filled = true ↔
      ∀ branch ∈ partition.branches, ∃ node ∈ branch.nodes, keep node.column = true := by
  rw [filled_iff, restrict, List.forall_mem_map]
  refine forall₂_congr fun branch _ => ?_
  constructor
  · intro hne
    obtain ⟨child, hc⟩ := List.exists_mem_of_ne_nil _ hne
    obtain ⟨node, hn, hk, -⟩ := Node.mem_restrictNodes.mp hc
    exact ⟨node, hn, hk⟩
  · rintro ⟨node, hn, hk⟩
    exact List.ne_nil_of_mem (Node.mem_restrictNodes.mpr ⟨node, hn, hk, rfl⟩)

section
variable {keep keep' : Nat → Bool} {node : Node} {branch : Branch Node} {c : Nat}

theorem Branch.restrict_restrict_of_nodes
    (h : ∀ node ∈ branch.nodes,
      (node.restrict keep).restrict keep' = node.restrict fun c => keep c && keep' c) :
    (branch.restrict keep).restrict keep' = branch.restrict fun c => keep c && keep' c := by
  have hnodes : Node.restrictNodes keep' (Node.restrictNodes keep branch.nodes) =
      Node.restrictNodes (fun c => keep c && keep' c) branch.nodes := by
    simp only [Node.restrictNodes_eq, List.filter_map, List.map_map, List.filter_filter,
      Function.comp_def, Node.column_restrict]
    rw [List.filter_congr fun node _ => Bool.and_comm (keep' node.column) (keep node.column)]
    exact List.map_congr_left fun node hn => h node (List.mem_filter.mp hn).1
  rw [Branch.restrict, Branch.restrict, hnodes, Branch.restrict]

/-- What two restrictions in turn leave is what one restriction to the columns of both leaves. -/
theorem Node.restrict_restrict (node : Node) :
    (node.restrict keep).restrict keep' = node.restrict fun c => keep c && keep' c := by
  induction node using Node.induction with
  | step node ih =>
    have hpartition : ∀ partition ∈ node.partitions, (partition.restrict keep).restrict keep' =
        partition.restrict fun c => keep c && keep' c := by
      intro partition hp
      have hbranch : ∀ branch ∈ partition.branches, (branch.restrict keep).restrict keep' =
          branch.restrict fun c => keep c && keep' c := fun branch hb =>
        Branch.restrict_restrict_of_nodes fun child hc =>
          ih child (mem_children.mpr ⟨partition, hp, branch, hb, hc⟩)
      simp only [Partitioning.restrict, List.map_map]
      exact congrArg _ (List.map_congr_left hbranch)
    have hpartitions : ((node.restrict keep).restrict keep').partitions =
        (node.restrict fun c => keep c && keep' c).partitions := by
      simp only [partitions_restrict, List.filter_map, List.map_map, List.filter_filter,
        Function.comp_def]
      have hstays : ∀ partition ∈ node.partitions,
          (((partition.restrict keep).restrict keep').filled && (partition.restrict keep).filled) =
            (partition.restrict fun c => keep c && keep' c).filled := by
        intro partition hp
        rw [hpartition partition hp]
        -- A branch with a node that both keep has a node that the first of them keeps.
        refine Bool.and_eq_left_iff_imp.mpr fun hboth => ?_
        rw [Partitioning.filled_restrict] at hboth ⊢
        intro branch hb
        obtain ⟨child, hc, hk⟩ := hboth branch hb
        exact ⟨child, hc, (Bool.and_eq_true_iff.mp hk).1⟩
      rw [List.filter_congr hstays]
      exact List.map_congr_left fun partition hp => hpartition partition (List.mem_filter.mp hp).1
    cases node with
    | mk column name fit partitions => exact congrArg (mk column name fit) hpartitions

theorem Branch.restrict_restrict (branch : Branch Node) :
    (branch.restrict keep).restrict keep' = branch.restrict fun c => keep c && keep' c :=
  restrict_restrict_of_nodes fun node _ => node.restrict_restrict

/-- Of two restrictions the one to fewer columns is a restriction of the other. -/
theorem Branch.restrict_of_le (h : keep' ≤ keep) (branch : Branch Node) :
    (branch.restrict keep).restrict keep' = branch.restrict keep' := by
  rw [restrict_restrict]
  refine congrArg (branch.restrict ·) (funext fun c => ?_)
  exact Bool.and_eq_right_iff_imp.mpr (h c)

theorem Branch.columns_restrict_mono (h : keep' ≤ keep) (branch : Branch Node) :
    (branch.restrict keep').columns ⊆ (branch.restrict keep).columns := by
  rw [← branch.restrict_of_le h]
  exact columns_restrict_subset _

theorem Node.kept_of_mem_columns_restrict (h : c ∈ (node.restrict keep).columns) :
    c = node.column ∨ keep c = true := by
  induction node using Node.induction with
  | step node ih =>
    obtain rfl | ⟨child, hchild, hc⟩ := mem_columns.mp h
    · exact .inl (column_restrict node)
    · obtain ⟨original, ho, hk, rfl⟩ := exists_of_mem_children_restrict hchild
      obtain rfl | hc := ih original ho hc
      · exact .inr hk
      · exact .inr hc

theorem Branch.kept_of_mem_columns_restrict (h : c ∈ (branch.restrict keep).columns) :
    keep c = true := by
  obtain ⟨node, hn, hc⟩ := Branch.mem_columns.mp h
  obtain ⟨original, -, hk, rfl⟩ := Node.mem_restrictNodes.mp hn
  obtain rfl | hc := Node.kept_of_mem_columns_restrict hc
  · exact hk
  · exact hc

end

namespace Population

variable {bound : Nat} {branches : List (Branch Node)}

-- ---------------------------------------------------------------------------
-- Rounds
-- ---------------------------------------------------------------------------

/-- The branches cut down once, to the columns that all of them model. -/
def cutDown (bound : Nat) (branches : List (Branch Node)) : List (Branch Node) :=
  branches.map (Branch.restrict (commonColumns bound branches).contains)

/-- Every column of a branch is one that all of them model. -/
def Settled (bound : Nat) (branches : List (Branch Node)) : Prop :=
  ∀ branch ∈ branches, ∀ c ∈ branch.columns, (commonColumns bound branches).contains c = true

theorem settled_iff :
    (Node.branchColumns branches).all (commonColumns bound branches).contains = true ↔
      Settled bound branches := by
  rw [List.all_eq_true]
  constructor
  · exact fun h branch hb c hc => h c (Node.mem_branchColumns.mpr ⟨branch, hb, hc⟩)
  · intro h c hc
    obtain ⟨branch, hb, hc⟩ := Node.mem_branchColumns.mp hc
    exact h branch hb c hc

/-- An agreement by its number of rounds: the last one drops nothing, those before it drop something. -/
inductive AgreesIn (bound : Nat) :
    Nat → List (Branch Node) → List (Branch Node) × ColumnSet → Prop
  | last {branches : List (Branch Node)} : Settled bound branches →
      AgreesIn bound 1 branches (cutDown bound branches, commonColumns bound branches)
  | again {rounds : Nat} {branches : List (Branch Node)}
      {result : List (Branch Node) × ColumnSet} : ¬ Settled bound branches →
      AgreesIn bound rounds (cutDown bound branches) result →
      AgreesIn bound (rounds + 1) branches result

/-- Agreement has at most one round more than the branches have nodes. -/
theorem agree_rounds (bound : Nat) (branches : List (Branch Node)) :
    ∃ rounds ≤ Node.branchCount branches + 1,
      AgreesIn bound rounds branches (agree bound branches) := by
  induction branches using agree.induct bound with
  | case1 branches shared hall =>
    refine ⟨1, Nat.le_add_left 1 _, ?_⟩
    rw [agree, if_pos hall, Node.restrictBranches_eq]
    exact .last (settled_iff.mp hall)
  | case2 branches shared kept hall ih =>
    obtain ⟨rounds, hle, hrounds⟩ := ih
    have hlt : Node.branchCount kept < Node.branchCount branches :=
      Node.branchCount_restrict_lt _ _ (by simpa using hall)
    refine ⟨rounds + 1, by omega, ?_⟩
    rw [agree, if_neg hall]
    refine .again (fun h => hall (settled_iff.mpr h)) ?_
    rw [cutDown, ← Node.restrictBranches_eq]
    exact hrounds

-- ---------------------------------------------------------------------------
-- Settled branches
-- ---------------------------------------------------------------------------

theorem exists_represents_commonColumns
    (hb : ∀ branch ∈ branches, ∀ c ∈ branch.columns, c < bound) :
    ∃ members, (commonColumns bound branches).Represents bound members := by
  have hcolumns : ∀ branch ∈ branches, (branch.columnSet bound).Represents bound
      (∅ ∪ branch.columns.toFinset) := fun branch hmem =>
    (ColumnSet.represents_empty bound).insertAll (hb branch hmem)
  cases branches with
  | nil => exact ⟨∅, ColumnSet.represents_empty bound⟩
  | cons first rest =>
    refine List.foldlRecOn (motive := fun shared : ColumnSet => ∃ members,
      shared.Represents bound members) rest _ ⟨_, hcolumns first List.mem_cons_self⟩ ?_
    rintro shared ⟨members, hshared⟩ branch hmem
    exact ⟨_, hshared.inter (hcolumns branch (List.mem_cons_of_mem _ hmem))⟩

theorem exists_of_contains_commonColumns {c : Nat}
    (h : (commonColumns bound branches).contains c = true) :
    ∃ branch ∈ branches, c ∈ branch.columns := by
  cases branches with
  | nil => simp [commonColumns] at h
  | cons first rest =>
    have hall := ((contains_commonColumns (List.cons_ne_nil first rest)).mp h).2
    exact ⟨first, List.mem_cons_self, hall first List.mem_cons_self⟩

namespace Settled

variable {branch : Branch Node} {c : Nat}

theorem mem_columns_iff (h : Settled bound branches) (hmem : branch ∈ branches) :
    c ∈ branch.columns ↔ (commonColumns bound branches).contains c = true := by
  refine ⟨h branch hmem c, fun hc => ?_⟩
  exact ((contains_commonColumns (List.ne_nil_of_mem hmem)).mp hc).2 branch hmem

/-- The columns of a settled branch are, word by word, those that all branches model. -/
theorem columnSet_eq (h : Settled bound branches)
    (hb : ∀ branch ∈ branches, ∀ c ∈ branch.columns, c < bound) (hmem : branch ∈ branches) :
    branch.columnSet bound = commonColumns bound branches := by
  have hcolumns := (ColumnSet.represents_empty bound).insertAll (hb branch hmem)
  obtain ⟨members, hcommon⟩ := exists_represents_commonColumns hb
  refine (hcolumns.eq_iff hcommon).mpr (Finset.ext fun c => ?_)
  rw [← hcommon.contains_iff, ← h.mem_columns_iff hmem, Finset.empty_union, List.mem_toFinset]

theorem cutDown_eq (h : Settled bound branches)
    (hf : ∀ branch ∈ branches, ∀ node ∈ branch.nodes, node.Filled) :
    cutDown bound branches = branches := by
  refine (List.map_congr_left fun branch hmem => ?_).trans (List.map_id' branches)
  exact Branch.restrict_eq_self (hf branch hmem) (h branch hmem)

theorem agree_eq (h : Settled bound branches)
    (hf : ∀ branch ∈ branches, ∀ node ∈ branch.nodes, node.Filled) :
    agree bound branches = (branches, commonColumns bound branches) := by
  rw [agree, if_pos (settled_iff.mpr h), Node.restrictBranches_eq]
  exact congrArg (·, _) (h.cutDown_eq hf)

/-- Branches that a restriction settles are restricted to the columns that all of them model. -/
theorem restrict_eq {keep : Nat → Bool}
    (h : Settled bound (branches.map (Branch.restrict keep))) :
    branches.map (Branch.restrict keep) = branches.map (Branch.restrict
      (commonColumns bound (branches.map (Branch.restrict keep))).contains) := by
  have hle : (commonColumns bound (branches.map (Branch.restrict keep))).contains ≤ keep := by
    refine fun c => Bool.le_iff_imp.mpr fun hc => ?_
    obtain ⟨cut, hcut, hc⟩ := exists_of_contains_commonColumns hc
    obtain ⟨original, -, rfl⟩ := List.mem_map.mp hcut
    exact Branch.kept_of_mem_columns_restrict hc
  conv_lhs => rw [← h.cutDown_eq restrict_filled, cutDown, List.map_map]
  exact List.map_congr_left fun branch _ => branch.restrict_of_le hle

end Settled

-- ---------------------------------------------------------------------------
-- The greatest set
-- ---------------------------------------------------------------------------

/-- Columns of the branches that each of them models, and nothing else, once it is cut down to
them. -/
structure Agreed (branches : List (Branch Node)) (keep : Nat → Bool) : Prop where
  occur : ∀ c, keep c = true → ∃ branch ∈ branches, c ∈ branch.columns
  mem_columns_iff : ∀ branch ∈ branches, ∀ c, c ∈ (branch.restrict keep).columns ↔ keep c = true

theorem Agreed.le_commonColumns {keep keep' : Nat → Bool} (h : Agreed branches keep')
    (hb : ∀ branch ∈ branches, ∀ c ∈ branch.columns, c < bound) (hle : keep' ≤ keep) :
    keep' ≤ (commonColumns bound (branches.map (Branch.restrict keep))).contains := by
  intro c
  refine Bool.le_iff_imp.mpr fun hc => ?_
  have hcolumn : ∀ branch ∈ branches, c ∈ (branch.restrict keep).columns := fun branch hmem =>
    branch.columns_restrict_mono hle ((h.mem_columns_iff branch hmem c).mpr hc)
  obtain ⟨branch, hmem, hcmem⟩ := h.occur c hc
  have hne : branches.map (Branch.restrict keep) ≠ [] :=
    List.ne_nil_of_mem (List.mem_map_of_mem hmem)
  exact (contains_commonColumns hne).mpr
    ⟨hb branch hmem c hcmem, List.forall_mem_map.mpr hcolumn⟩

/-- Agreement restricts the branches, to the columns that it returns, so that they are settled. It
drops no column of an agreed set. -/
theorem agree_settles (hb : ∀ branch ∈ branches, ∀ c ∈ branch.columns, c < bound)
    (hf : ∀ branch ∈ branches, ∀ node ∈ branch.nodes, node.Filled) :
    Settled bound (agree bound branches).1 ∧
      (agree bound branches).2 = commonColumns bound (agree bound branches).1 ∧
      (agree bound branches).1 = branches.map (Branch.restrict (agree bound branches).2.contains) ∧
      ∀ keep, Agreed branches keep → keep ≤ (agree bound branches).2.contains := by
  have hstart : branches = branches.map (Branch.restrict fun _ => true) := by
    refine ((List.map_congr_left fun branch hmem => ?_).trans (List.map_id' branches)).symm
    exact Branch.restrict_eq_self (hf branch hmem) fun _ _ => rfl
  obtain ⟨last, ⟨keep, rfl, hgreatest⟩, hsettled, heq⟩ := agree_ok bound
    (fun cut => ∃ keep, cut = branches.map (Branch.restrict keep) ∧
      ∀ keep', Agreed branches keep' → keep' ≤ keep)
    ⟨_, hstart, fun _ _ _ => Bool.le_true _⟩ <| by
      rintro cut ⟨keep, rfl, hgreatest⟩
      refine ⟨fun c => keep c &&
        (commonColumns bound (branches.map (Branch.restrict keep))).contains c, ?_, ?_⟩
      · rw [List.map_map]
        exact List.map_congr_left fun branch _ => branch.restrict_restrict
      · exact fun keep' h c =>
          le_inf (hgreatest keep' h c) (h.le_commonColumns hb (hgreatest keep' h) c)
  have hsettled : Settled bound (branches.map (Branch.restrict keep)) := hsettled
  rw [heq.trans (congrArg (·, _) (hsettled.cutDown_eq restrict_filled))]
  exact ⟨hsettled, rfl, hsettled.restrict_eq, fun keep' h =>
    h.le_commonColumns hb (hgreatest keep' h)⟩

/-- Whatever the branches, agreement ends, within one round more than they have nodes and without a
column out of bounds. It cuts them down to the greatest set of columns that each of them models then
and nothing else, returns this set with them, and leaves what it returns as it is. -/
theorem agree_greatest (hb : ∀ branch ∈ branches, ∀ c ∈ branch.columns, c < bound)
    (hf : ∀ branch ∈ branches, ∀ node ∈ branch.nodes, node.Filled) :
    (∃ rounds ≤ Node.branchCount branches + 1,
      AgreesIn bound rounds branches (agree bound branches)) ∧
    agree? bound branches = some (agree bound branches) ∧
    (∀ branch ∈ (agree bound branches).1, branch.columnSet bound = (agree bound branches).2) ∧
    (agree bound branches).1 = branches.map (Branch.restrict (agree bound branches).2.contains) ∧
    IsGreatest {keep | Agreed branches keep} (agree bound branches).2.contains ∧
    agree bound (agree bound branches).1 = agree bound branches := by
  refine ⟨agree_rounds bound branches, agree?_eq hb, ?_⟩
  obtain ⟨hsettled, hcommon, hcut, hgreatest⟩ := agree_settles hb hf
  have horigin : ∀ cut ∈ (agree bound branches).1, ∃ branch ∈ branches,
      branch.restrict (agree bound branches).2.contains = cut :=
    fun cut hmem => List.mem_map.mp (hcut ▸ hmem)
  have hfilled : ∀ cut ∈ (agree bound branches).1, ∀ node ∈ cut.nodes, node.Filled := by
    rw [hcut]
    exact restrict_filled
  refine ⟨fun cut hmem => ?_, hcut, ⟨⟨fun c hc => ?_, fun branch hmem c => ?_⟩, hgreatest⟩, ?_⟩
  · rw [hcommon]
    refine hsettled.columnSet_eq (fun cut hmem c hc => ?_) hmem
    obtain ⟨branch, hbranch, rfl⟩ := horigin cut hmem
    exact hb branch hbranch c (branch.columns_restrict_subset hc)
  · rw [hcommon] at hc
    obtain ⟨cut, hmem, hc⟩ := exists_of_contains_commonColumns hc
    obtain ⟨branch, hbranch, rfl⟩ := horigin cut hmem
    exact ⟨branch, hbranch, branch.columns_restrict_subset hc⟩
  · have hcutmem := List.mem_map_of_mem (f := Branch.restrict (agree bound branches).2.contains) hmem
    rw [← hcut] at hcutmem
    rw [hsettled.mem_columns_iff hcutmem, ← hcommon]
  · rw [hsettled.agree_eq hfilled, ← hcommon]

theorem filled_of_map_restrict_eq (h : branches.map (Branch.restrict fun _ => true) = branches) :
    ∀ branch ∈ branches, ∀ node ∈ branch.nodes, node.Filled :=
  fun branch hmem => restrict_filled branch (h.symm ▸ hmem)

/-- The columns of score, age and outcome are the greatest set, after a round that drops the rates. -/
theorem agree_greatest_uneven :
    (∃ rounds ≤ 21, AgreesIn 5 rounds (halves [uneven] [even]).branches
      (agree 5 (halves [uneven] [even]).branches)) ∧
    (∀ branch ∈ (agree 5 (halves [uneven] [even]).branches).1,
      branch.columnSet 5 = (agree 5 (halves [uneven] [even]).branches).2) ∧
    IsGreatest {keep | Agreed (halves [uneven] [even]).branches keep}
      (agree 5 (halves [uneven] [even]).branches).2.contains ∧
    (agree 5 (halves [uneven] [even]).branches).2.toList = [1, 2, 4] := by
  obtain ⟨hrounds, -, hcolumns, -, hgreatest, -⟩ :=
    @agree_greatest 5 (halves [uneven] [even]).branches (by decide) (filled_of_map_restrict_eq rfl)
  refine ⟨hrounds, hcolumns, hgreatest, ?_⟩
  rw [agree, if_neg (by decide), agree, if_pos (by decide)]
  decide

end Population

end FairProgram
