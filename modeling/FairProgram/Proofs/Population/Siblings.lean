import FairProgram.Proofs.Population.Agreement

/-!
# Siblings after an agreement

What a restriction leaves below a node is what hangs by kept columns in partitions that stay
(`Node.mem_columns_restrict_iff`). A column may be kept and be lost all the same, with a dropped one
above it (`Branch.Loses`). Agreement keeps nested siblings symmetric exactly where they lose the same
columns, and so above leaves, where no column is above another (`agree_symmetric_iff`).
-/

namespace FairProgram

-- ---------------------------------------------------------------------------
-- What a restriction leaves
-- ---------------------------------------------------------------------------

/-- Each branch of the partition starts with a kept column. -/
def Partitioning.Stays (keep : Nat → Bool) (partition : Partitioning Node) : Prop :=
  ∀ branch ∈ partition.branches, ∃ node ∈ branch.nodes, keep node.column = true

/-- A node and those below it that hang by kept columns in partitions that stay. -/
inductive Node.Leaves (keep : Nat → Bool) : Node → Node → Prop
  | here (node : Node) : Leaves keep node node
  | under {node child left : Node} {partition : Partitioning Node} {branch : Branch Node} :
      partition ∈ node.partitions → partition.Stays keep → branch ∈ partition.branches →
      child ∈ branch.nodes → keep child.column = true → Leaves keep child left →
      Leaves keep node left

namespace Node.Leaves

variable {keep : Nat → Bool} {node left : Node}

theorem all {P : Node → Prop} (h : node.Leaves keep left) (hall : node.All P) : left.All P := by
  induction h with
  | here node => exact hall
  | under hp _ hb hc _ _ ih => exact ih (hall.of_child (mem_children.mpr ⟨_, hp, _, hb, hc⟩))

theorem depth_le (h : node.Leaves keep left) : left.depth ≤ node.depth := by
  induction h with
  | here node => exact Nat.le_refl _
  | @under node child left _ _ hp _ hb hc _ _ ih =>
    have hchild := mem_children.mpr ⟨_, hp, _, hb, hc⟩
    exact Nat.le_of_lt (Nat.lt_of_le_of_lt ih (Node.depth_le.mp (Nat.le_refl node.depth) child hchild))

end Node.Leaves

/-- A kept column of a branch that hangs by kept columns nowhere in it. -/
def Branch.Loses (keep : Nat → Bool) (branch : Branch Node) (c : Nat) : Prop :=
  keep c = true ∧ c ∈ branch.columns ∧
    ∀ node ∈ branch.nodes, keep node.column = true → ∀ left, node.Leaves keep left → left.column ≠ c

/-- Siblings that stay below the node lose the same columns. -/
def Node.LosesAlike (keep : Nat → Bool) (node : Node) : Prop :=
  ∀ left, node.Leaves keep left → ∀ partition ∈ left.partitions, partition.Stays keep →
    ∀ a ∈ partition.branches, ∀ b ∈ partition.branches, ∀ c, a.Loses keep c → b.Loses keep c

section
variable {keep : Nat → Bool} {node child left : Node} {c : Nat}

namespace Node

theorem mem_children_restrict : child ∈ (node.restrict keep).children ↔
    ∃ partition ∈ node.partitions, partition.Stays keep ∧ ∃ branch ∈ partition.branches,
      ∃ original ∈ branch.nodes, keep original.column = true ∧ original.restrict keep = child := by
  constructor
  · intro h
    obtain ⟨partition, hp, branch, hb, hc⟩ := mem_children.mp h
    obtain ⟨whole, hw, rfl, hstays⟩ := mem_partitions_restrict.mp hp
    obtain ⟨full, hfull, rfl⟩ := List.mem_map.mp hb
    exact ⟨whole, hw, Partitioning.filled_restrict.mp hstays, full, hfull, mem_restrictNodes.mp hc⟩
  · rintro ⟨partition, hp, hstays, branch, hb, hc⟩
    exact mem_children.mpr ⟨partition.restrict keep,
      mem_partitions_restrict.mpr ⟨partition, hp, rfl, Partitioning.filled_restrict.mpr hstays⟩,
      branch.restrict keep, List.mem_map_of_mem hb, mem_restrictNodes.mpr hc⟩

theorem all_restrict_iff {P : Node → Prop} : (node.restrict keep).All P ↔
    ∀ left, node.Leaves keep left → P (left.restrict keep) := by
  constructor
  · intro h left hleft
    induction hleft with
    | here node => exact h.here
    | under hp hstays hb hc hk _ ih =>
      exact ih (h.of_child (mem_children_restrict.mpr ⟨_, hp, hstays, _, hb, _, hc, hk, rfl⟩))
  · intro h
    induction node using induction with
    | step node ih =>
      refine .mk (h node (.here node)) fun child hc => ?_
      obtain ⟨partition, hp, hstays, branch, hb, original, ho, hk, rfl⟩ := mem_children_restrict.mp hc
      exact ih original (mem_children.mpr ⟨partition, hp, branch, hb, ho⟩) fun left hleft =>
        h left (.under hp hstays hb ho hk hleft)

theorem mem_columns_restrict_iff : c ∈ (node.restrict keep).columns ↔
    ∃ left, node.Leaves keep left ∧ left.column = c := by
  constructor
  · intro h
    induction node using induction with
    | step node ih =>
      obtain rfl | ⟨child, hchild, hc⟩ := mem_columns.mp h
      · exact ⟨node, .here node, (column_restrict node).symm⟩
      · obtain ⟨partition, hp, hstays, branch, hb, original, ho, hk, rfl⟩ :=
          mem_children_restrict.mp hchild
        obtain ⟨left, hleft, rfl⟩ :=
          ih original (mem_children.mpr ⟨partition, hp, branch, hb, ho⟩) hc
        exact ⟨left, .under hp hstays hb ho hk hleft, rfl⟩
  · rintro ⟨left, hleft, rfl⟩
    induction hleft with
    | here node => exact node.column_mem_columns_restrict
    | under hp hstays hb hc hk _ ih =>
      exact mem_columns.mpr (.inr
        ⟨_, mem_children_restrict.mpr ⟨_, hp, hstays, _, hb, _, hc, hk, rfl⟩, ih⟩)

end Node

theorem Branch.mem_columns_restrict_iff {branch : Branch Node} : c ∈ (branch.restrict keep).columns ↔
    ∃ node ∈ branch.nodes, keep node.column = true ∧
      ∃ left, node.Leaves keep left ∧ left.column = c := by
  rw [Branch.mem_columns]
  constructor
  · rintro ⟨_, hn, hc⟩
    obtain ⟨original, ho, hk, rfl⟩ := Node.mem_restrictNodes.mp hn
    exact ⟨original, ho, hk, Node.mem_columns_restrict_iff.mp hc⟩
  · rintro ⟨original, ho, hk, hc⟩
    exact ⟨_, Node.mem_restrictNodes.mpr ⟨original, ho, hk, rfl⟩,
      Node.mem_columns_restrict_iff.mpr hc⟩

theorem Branch.mem_columns_restrict_iff_not_loses {branch : Branch Node} :
    c ∈ (branch.restrict keep).columns ↔
      keep c = true ∧ c ∈ branch.columns ∧ ¬ branch.Loses keep c := by
  constructor
  · intro h
    refine ⟨branch.kept_of_mem_columns_restrict h, branch.columns_restrict_subset h, fun hl => ?_⟩
    obtain ⟨node, hn, hk, left, hleft, hc⟩ := mem_columns_restrict_iff.mp h
    exact hl.2.2 node hn hk left hleft hc
  · rintro ⟨hk, hc, hl⟩
    by_contra hno
    refine hl ⟨hk, hc, fun node hn hkn left hleft hcolumn => hno ?_⟩
    exact mem_columns_restrict_iff.mpr ⟨node, hn, hkn, left, hleft, hcolumn⟩

/-- Siblings that model the same columns still do so after a restriction exactly where they lose the
same columns. -/
theorem Node.symmetric_restrict_iff (h : node.Symmetric) : (node.restrict keep).Symmetric ↔
    ∀ partition ∈ node.partitions, partition.Stays keep → ∀ a ∈ partition.branches,
      ∀ b ∈ partition.branches, ∀ c, a.Loses keep c → b.Loses keep c := by
  constructor
  · intro hr partition hp hstays a ha b hb c hl
    by_contra hnl
    have hmem : partition.restrict keep ∈ (node.restrict keep).partitions :=
      mem_partitions_restrict.mpr ⟨partition, hp, rfl, Partitioning.filled_restrict.mpr hstays⟩
    have hb' : c ∈ (b.restrict keep).columns := Branch.mem_columns_restrict_iff_not_loses.mpr
      ⟨hl.1, (h partition hp a ha b hb c).mp hl.2.1, hnl⟩
    have ha' := (hr _ hmem _ (List.mem_map_of_mem ha) _ (List.mem_map_of_mem hb) c).mpr hb'
    exact (Branch.mem_columns_restrict_iff_not_loses.mp ha').2.2 hl
  · intro hl partition hp a ha b hb c
    obtain ⟨original, ho, rfl, hfilled⟩ := mem_partitions_restrict.mp hp
    obtain ⟨first, hf, rfl⟩ := List.mem_map.mp ha
    obtain ⟨second, hs, rfl⟩ := List.mem_map.mp hb
    have hlose := hl original ho (Partitioning.filled_restrict.mp hfilled)
    rw [Branch.mem_columns_restrict_iff_not_loses, Branch.mem_columns_restrict_iff_not_loses,
      h original ho first hf second hs c]
    have hsame : first.Loses keep c ↔ second.Loses keep c :=
      ⟨hlose first hf second hs c, hlose second hs first hf c⟩
    rw [hsame]

theorem Node.all_symmetric_restrict_iff (h : node.All Node.Symmetric) :
    (node.restrict keep).All Node.Symmetric ↔ node.LosesAlike keep :=
  all_restrict_iff.trans <| forall₂_congr fun _ hleft =>
    symmetric_restrict_iff (hleft.all h).here

theorem Branch.not_loses {branch : Branch Node}
    (h : ∀ node ∈ branch.nodes, ∀ child, child ∉ node.children) : ¬ branch.Loses keep c := by
  rintro ⟨hk, hc, hl⟩
  obtain ⟨node, hn, hc⟩ := Branch.mem_columns.mp hc
  obtain rfl | ⟨child, hchild, -⟩ := Node.mem_columns.mp hc
  · exact hl node hn hk node (.here node) rfl
  · exact h node hn child hchild

/-- Nothing is lost where no column is nested in a sibling. -/
theorem Node.losesAlike_of_depth (h : node.depth ≤ 1) : node.LosesAlike keep := by
  intro left hleft partition hp _ a ha b _ c hl
  have hshallow : left.depth ≤ 1 := Nat.le_trans hleft.depth_le h
  refine absurd hl (Branch.not_loses fun child hc => ?_)
  have hchild := mem_children.mpr ⟨partition, hp, a, ha, hc⟩
  exact children_eq_nil_of_depth (Nat.le_of_lt_succ (Node.depth_le.mp hshallow child hchild))

end

namespace Population

-- ---------------------------------------------------------------------------
-- Agreement
-- ---------------------------------------------------------------------------

section
variable {bound : Nat} {branches : List (Branch Node)}

/-- Where nested siblings model the same columns, they do so after an agreement exactly if those that
stay lose the same columns. They lose none where nothing is nested in them. -/
theorem agree_symmetric_iff (hb : ∀ branch ∈ branches, ∀ c ∈ branch.columns, c < bound)
    (hf : ∀ branch ∈ branches, ∀ node ∈ branch.nodes, node.Filled)
    (hs : ∀ branch ∈ branches, ∀ node ∈ branch.nodes, node.All Node.Symmetric) :
    ((∀ branch ∈ (agree bound branches).1, ∀ node ∈ branch.nodes, node.All Node.Symmetric) ↔
      ∀ branch ∈ branches, ∀ node ∈ branch.nodes,
        (agree bound branches).2.contains node.column = true →
        node.LosesAlike (agree bound branches).2.contains) ∧
    ((∀ branch ∈ branches, ∀ node ∈ branch.nodes, node.depth ≤ 1) →
      ∀ branch ∈ (agree bound branches).1, ∀ node ∈ branch.nodes, node.All Node.Symmetric) := by
  have hcut := (agree_settles hb hf).2.2.1
  generalize (agree bound branches).2.contains = keep at hcut ⊢
  have hiff : (∀ branch ∈ (agree bound branches).1, ∀ node ∈ branch.nodes,
        node.All Node.Symmetric) ↔
      ∀ branch ∈ branches, ∀ node ∈ branch.nodes, keep node.column = true →
        node.LosesAlike keep := by
    rw [hcut, List.forall_mem_map]
    refine forall₂_congr fun branch hbranch => ⟨fun h node hn hk => ?_, fun h cut hc => ?_⟩
    · exact (Node.all_symmetric_restrict_iff (hs branch hbranch node hn)).mp
        (h _ (Node.mem_restrictNodes.mpr ⟨node, hn, hk, rfl⟩))
    · obtain ⟨node, hn, hk, rfl⟩ := Node.mem_restrictNodes.mp hc
      exact (Node.all_symmetric_restrict_iff (hs branch hbranch node hn)).mpr (h node hn hk)
  exact ⟨hiff, fun hd => hiff.mpr fun branch hbranch node hn _ =>
    Node.losesAlike_of_depth (hd branch hbranch node hn)⟩

end

-- ---------------------------------------------------------------------------
-- Uneven siblings
-- ---------------------------------------------------------------------------

theorem all_symmetric_plain (column : Nat) (name : String) :
    (plain column name []).All Node.Symmetric :=
  .mk (fun _ hp => nomatch hp) fun _ hc => nomatch hc

theorem all_symmetric_halves {column : Nat} {name : String} {low high : List Node}
    (hlow : Node.nodeColumns low ⊆ Node.nodeColumns high)
    (hhigh : Node.nodeColumns high ⊆ Node.nodeColumns low)
    (h : ∀ node ∈ low ++ high, node.All Node.Symmetric) :
    (plain column name [halves low high]).All Node.Symmetric := by
  refine .mk (fun partition hp a ha b hb c => ?_) fun child hc => h child ?_
  · obtain rfl := List.mem_singleton.mp hp
    obtain rfl | ha := List.mem_cons.mp ha <;> obtain rfl | hb := List.mem_cons.mp hb
    · rfl
    · obtain rfl := List.mem_singleton.mp hb
      exact ⟨fun hc => hlow hc, fun hc => hhigh hc⟩
    · obtain rfl := List.mem_singleton.mp ha
      exact ⟨fun hc => hhigh hc, fun hc => hlow hc⟩
    · rw [List.mem_singleton.mp ha, List.mem_singleton.mp hb]
  · obtain ⟨partition, hp, branch, hb, hc⟩ := Node.mem_children.mp hc
    obtain rfl := List.mem_singleton.mp hp
    obtain rfl | hb := List.mem_cons.mp hb
    · exact List.mem_append_left _ hc
    · obtain rfl := List.mem_singleton.mp hb
      exact List.mem_append_right _ hc

/-- Rates that model an outcome, with an age beside them on one side only. -/
def lopsidedAges : List (Branch Node) :=
  (halves [plain 3 "rate" [outcomes]] [plain 2 "age" [], plain 3 "rate" [outcomes]]).branches

theorem all_symmetric_outcomes (column : Nat) (name : String) :
    (plain column name [outcomes]).All Node.Symmetric :=
  all_symmetric_halves (by decide) (by decide) (by simp [all_symmetric_plain])

theorem agree_symmetric_iff_lopsidedAges :
    (∀ branch ∈ lopsidedAges, ∀ node ∈ branch.nodes, node.depth ≤ 1) ∧
    ∀ branch ∈ (agree 5 lopsidedAges).1, ∀ node ∈ branch.nodes, node.All Node.Symmetric := by
  have hdepth : ∀ branch ∈ lopsidedAges, ∀ node ∈ branch.nodes, node.depth ≤ 1 := by decide
  refine ⟨hdepth, (agree_symmetric_iff (by decide) (filled_of_map_restrict_eq rfl) ?_).2 hdepth⟩
  simp [lopsidedAges, halves, all_symmetric_plain, all_symmetric_outcomes]

/-- An agreement that drops the rates spoils the ages of low scores: some of them model the outcome
and some do not. -/
theorem exists_spoilt_siblings :
    (∀ branch ∈ (halves [uneven] [even]).branches, ∀ c ∈ branch.columns, c < 5) ∧
    (∀ branch ∈ (halves [uneven] [even]).branches, ∀ node ∈ branch.nodes,
      node.Filled ∧ node.All Node.Symmetric) ∧
    ¬ ∀ branch ∈ (agree 5 (halves [uneven] [even]).branches).1, ∀ node ∈ branch.nodes,
      node.All Node.Symmetric := by
  have hfilled := @filled_of_map_restrict_eq (halves [uneven] [even]).branches rfl
  have huneven : uneven.All Node.Symmetric := by
    refine all_symmetric_halves (by decide) (by decide) ?_
    refine List.forall_mem_cons.mpr ⟨?_, List.forall_mem_singleton.mpr ?_⟩
    · refine all_symmetric_halves (by decide) (by decide) ?_
      simp [all_symmetric_outcomes]
    · refine all_symmetric_halves (by decide) (by decide) ?_
      simp [all_symmetric_plain]
  have heven : even.All Node.Symmetric := by
    refine all_symmetric_halves (by decide) (by decide) ?_
    simp [all_symmetric_outcomes]
  refine ⟨by decide, fun branch hb node hn => ⟨hfilled branch hb node hn, ?_⟩, fun h => ?_⟩
  · simp only [halves, List.mem_cons, List.not_mem_nil, or_false] at hb
    obtain rfl | rfl := hb
    · exact List.mem_singleton.mp hn ▸ huneven
    · exact List.mem_singleton.mp hn ▸ heven
  · rw [agree_uneven] at h
    have hscore := (h _ List.mem_cons_self _ List.mem_cons_self).here
    have hsame := hscore _ List.mem_cons_self _ List.mem_cons_self _
      (List.mem_cons_of_mem _ List.mem_cons_self) 4
    exact absurd hsame (by decide)

end Population

end FairProgram
