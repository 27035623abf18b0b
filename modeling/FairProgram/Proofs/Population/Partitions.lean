import FairProgram.Proofs.Population.Shape

/-!
# Partitions of compiled models

What the leaves of a compilation have, and restriction and added branches keep, holds at every node
of its model (`Node.Kept.all_compile`). One such property is that partitions of a node differ in their
thresholds; with the shape of a model it says what its partitions look like (`compile_partitions`).
-/

namespace FairProgram

-- ---------------------------------------------------------------------------
-- Properties that compilation keeps
-- ---------------------------------------------------------------------------

/-- A property of the leaves of a dataset that restriction and added branches keep. -/
structure Node.Kept (d : Dataset) (P : Node → Prop) : Prop where
  leaf : ∀ {index column} (fit : Fit), d.columns[index]? = some column →
    P (Node.leaf index column.name fit)
  restrict : ∀ {node} (keep : Nat → Bool), P node → P (node.restrict keep)
  addBranches : ∀ {node} (thresholds : List Float) (added : List (Branch Node)), P node →
    P (node.addBranches thresholds added)

namespace Node

variable {P : Node → Prop} {node child : Node} {thresholds : List Float}
  {branches added : List (Branch Node)}

theorem mem_mergeBranches {branch : Branch Node} (h : branch ∈ mergeBranches branches added) :
    ∃ old ∈ branches, branch.range = old.range ∧ ∀ child ∈ branch.nodes,
      child ∈ old.nodes ∨ ∃ new ∈ added, child ∈ new.nodes := by
  rw [mergeBranches] at h
  obtain ⟨⟨old, place⟩, hold, rfl⟩ := List.mem_map.mp h
  refine ⟨old, List.fst_mem_of_mem_zipIdx hold, ?_⟩
  dsimp only
  cases hplace : added[place]? with
  | none => exact ⟨rfl, fun child hc => .inl hc⟩
  | some new =>
    refine ⟨rfl, fun child hc => ?_⟩
    obtain hc | hc := List.mem_append.mp hc
    · exact .inl hc
    · exact .inr ⟨new, List.mem_of_getElem? hplace, hc⟩

/-- Whatever the thresholds and the number of branches, no other children come in. -/
theorem of_mem_children_addBranches (h : child ∈ (node.addBranches thresholds added).children) :
    child ∈ node.children ∨ ∃ branch ∈ added, child ∈ branch.nodes := by
  have hpartitions : ∀ partition ∈ (node.addBranches thresholds added).partitions,
      ∀ branch ∈ partition.branches, ∀ child ∈ branch.nodes,
        child ∈ node.children ∨ ∃ branch ∈ added, child ∈ branch.nodes := by
    apply forall_partitions_addBranches
    · exact fun old hold branch hb child hc => .inl (mem_children.mpr ⟨old, hold, branch, hb, hc⟩)
    · exact fun branch hb child hc => .inr ⟨branch, hb, hc⟩
    · intro first hfirst _ branch hb child hc
      obtain ⟨old, hold, -, hchild⟩ := mem_mergeBranches hb
      exact (hchild child hc).imp_left fun hc => mem_children.mpr ⟨first, hfirst, old, hold, hc⟩
  obtain ⟨partition, hp, branch, hb, hc⟩ := mem_children.mp h
  exact hpartitions partition hp branch hb child hc

end Node

namespace Node.Kept

variable {p : Params} {d : Dataset} {P : Node → Prop} {node : Node}

theorem all_leaf (hk : Kept d P) {index : Nat} {column : Column} (fit : Fit)
    (h : d.columns[index]? = some column) : (Node.leaf index column.name fit).All P :=
  .mk (hk.leaf fit h) fun _ hc => nomatch hc

theorem all_addBranches (hk : Kept d P) {thresholds : List Float} {added : List (Branch Node)}
    (h : node.All P) (hadded : ∀ branch ∈ added, ∀ child ∈ branch.nodes, child.All P) :
    (node.addBranches thresholds added).All P := by
  refine .mk (hk.addBranches thresholds added h.here) fun child hc => ?_
  obtain hc | ⟨branch, hb, hc⟩ := of_mem_children_addBranches hc
  · exact h.of_child hc
  · exact hadded branch hb child hc

theorem all_agree (hk : Kept d P) {bound : Nat} {branches : List (Branch Node)}
    (h : ∀ branch ∈ branches, ∀ child ∈ branch.nodes, child.All P) :
    ∀ branch ∈ (Population.agree bound branches).1, ∀ child ∈ branch.nodes, child.All P := by
  refine Population.agree_induction
    (fun branches => ∀ branch ∈ branches, ∀ child ∈ branch.nodes, child.All P) h ?_
  intro branches h branch hb child hc
  obtain ⟨original, ho, rfl⟩ := List.mem_map.mp hb
  obtain ⟨whole, hw, -, rfl⟩ := mem_restrictNodes.mp hc
  exact (h original ho whole hw).restrict fun _ => hk.restrict _

theorem all_attach (hk : Kept d P) {deeper : List Nat → Population.Growth → Population.Growth}
    (hdeeper : ∀ rows growth, growth.node.All P → (deeper rows growth).node.All P)
    {rows : List Nat} {growth : Population.Growth} {subject : Column} {index : Nat}
    (hsubject : d.columns[index]? = some subject) (refinement : Refinement)
    (h : growth.node.All P) :
    (Population.attach d deeper rows growth (subject, index) refinement).node.All P := by
  refine hk.all_addBranches h (hk.all_agree fun branch hb child hc => ?_)
  obtain ⟨bucket, -, rfl⟩ := List.mem_map.mp hb
  obtain rfl := List.mem_singleton.mp hc
  exact hdeeper _ _ (hk.all_leaf bucket.rows.fit hsubject)

theorem all_grow (hk : Kept d P) (levels : Nat) (rows : List Nat) (growth : Population.Growth)
    (h : growth.node.All P) : (Population.grow p d levels rows growth).node.All P := by
  induction levels generalizing rows growth with
  | zero => exact h
  | succ levels ih =>
    refine List.foldlRecOn (motive := fun growth : Population.Growth => growth.node.All P) _ _ h ?_
    rintro growth h ⟨subject, index⟩ hmem
    have hsubject := List.mem_zipIdx_iff_getElem?.mp (List.mem_of_mem_drop hmem)
    rw [Population.visit]
    split
    · exact h
    · split
      · exact hk.all_attach ih hsubject _ h
      · exact h

theorem all_forest (hk : Kept d P) : ∀ root ∈ (Population.forest p d).roots, root.All P := by
  refine List.foldlRecOn (motive := fun forest : Population.Forest =>
    ∀ root ∈ forest.roots, root.All P) _ _ (fun _ hroot => nomatch hroot) ?_
  rintro forest h ⟨column, index⟩ hmem
  have hcolumn := List.mem_zipIdx_iff_getElem?.mp hmem
  simp only [Population.plant]
  split
  · exact h
  · split
    · exact h
    · refine List.forall_mem_append.mpr ⟨h, List.forall_mem_singleton.mpr ?_⟩
      exact hk.all_grow _ _ _ (hk.all_leaf _ hcolumn)

theorem all_compile (hk : Kept d P) {m : PopulationModel} (h : Population.compile p d = .ok m) :
    ∀ root ∈ m.roots, root.All P := by
  obtain ⟨-, -, -, rfl⟩ := Population.compile_eq_ok_iff.mp h
  exact hk.all_forest

end Node.Kept

-- ---------------------------------------------------------------------------
-- Thresholds
-- ---------------------------------------------------------------------------

/-- No two partitions of a node split at equal thresholds. -/
def Node.Distinct (node : Node) : Prop :=
  (node.partitions.map Partitioning.thresholds).Pairwise fun a b => (a == b) = false

theorem Node.thresholds_addBranches (thresholds : List Float) (added : List (Branch Node))
    (node : Node) : (node.addBranches thresholds added).partitions.map Partitioning.thresholds =
      if node.partitions.any (·.thresholds == thresholds) then
        node.partitions.map Partitioning.thresholds
      else node.partitions.map Partitioning.thresholds ++ [thresholds] := by
  have haddto (partitions : List (Partitioning Node)) :
      (addBranchesTo thresholds added partitions).map Partitioning.thresholds =
        if partitions.any (·.thresholds == thresholds) then
          partitions.map Partitioning.thresholds
        else partitions.map Partitioning.thresholds ++ [thresholds] := by
    induction partitions with
    | nil => rfl
    | cons first rest ih =>
      rw [addBranchesTo, List.any_cons]
      cases hsame : first.thresholds == thresholds with
      | true => rfl
      | false =>
        rw [Bool.false_or, if_neg Bool.false_ne_true, List.map_cons, ih]
        split <;> rfl
  cases node with
  | mk column name fit partitions => exact haddto partitions

theorem Node.kept_distinct (d : Dataset) : Node.Kept d Node.Distinct where
  leaf _ _ := List.Pairwise.nil
  restrict keep h := by
    have h := List.pairwise_map.mp h
    rw [Distinct, partitions_restrict, List.pairwise_map]
    exact (List.pairwise_map.mpr h).filter _
  addBranches thresholds added h := by
    rw [Distinct, thresholds_addBranches]
    split
    · exact h
    · rename_i hnew
      refine List.pairwise_append.mpr ⟨h, List.pairwise_singleton _ _, ?_⟩
      intro old hold new hn
      obtain ⟨partition, hp, rfl⟩ := List.mem_map.mp hold
      obtain rfl := List.mem_singleton.mp hn
      exact Bool.eq_false_iff.mpr fun hsame => hnew (List.any_eq_true.mpr ⟨partition, hp, hsame⟩)

namespace Partitioning

variable {parent : Nat} {partition : Partitioning Node}

theorem Covers.ranges_eq (h : partition.Covers) :
    partition.branches.map (·.range) = Range.between (-1 / 0) partition.thresholds (1 / 0) :=
  h.thresholds_eq ▸ h.chain.eq_between (h.chain.ne_nil (by decide))

theorem Covers.length_branches (h : partition.Covers) :
    partition.branches.length = partition.thresholds.length + 1 := by
  rw [← Range.length_between (-1 / 0) partition.thresholds (1 / 0), ← h.ranges_eq, List.length_map]

theorem Covers.increasing (h : partition.Covers) :
    (-1 / 0 :: (partition.thresholds ++ [1 / 0])).Pairwise (· < ·) := by
  rw [← Range.map_upper_between (-1 / 0), ← h.ranges_eq]
  exact h.chain.pairwise_bounds

end Partitioning

namespace Population

section
variable {p : Params} {d : Dataset} {m : PopulationModel}

/-- Every partition of a compiled model has thresholds in increasing order, the ranges between them
in this order, and on all of its branches the same columns. No two partitions of a node have equal
thresholds. -/
theorem compile_partitions (h : compile p d = .ok m) {path : List (Nat × Range)} {node : Node}
    (hr : m.Reaches path node) :
    (∀ partition ∈ node.partitions,
      1 ≤ partition.thresholds.length ∧
      (-1 / 0 :: (partition.thresholds ++ [1 / 0])).Pairwise (· < ·) ∧
      partition.branches.length = partition.thresholds.length + 1 ∧
      partition.branches.map (·.range) = Range.between (-1 / 0) partition.thresholds (1 / 0) ∧
      (∀ branch ∈ partition.branches, branch.nodes ≠ []) ∧
      ∃ columns, ∀ branch ∈ partition.branches, branch.nodes.map Node.column = columns) ∧
    node.partitions.Pairwise fun a b => (a.thresholds == b.thresholds) = false := by
  have hshaped := (hr.all (compile_shaped h).shaped).here
  have hdistinct := (hr.all ((Node.kept_distinct d).all_compile h)).here
  refine ⟨fun partition hp => ?_, List.pairwise_map.mp hdistinct⟩
  have hs := hshaped.partitions partition hp
  have hlen := hs.length_branches
  have hseveral := hs.several
  exact ⟨by omega, hs.increasing, hlen, hs.ranges_eq, Partitioning.filled_iff.mp hs.filled,
    hs.listed⟩

theorem compile_partitions_apart : ∃ m root, compile Partition.oneCut apart = .ok m ∧
    m.Reaches [] root ∧ IsFork root ∧
    (∀ partition ∈ root.partitions,
      1 ≤ partition.thresholds.length ∧
      (-1 / 0 :: (partition.thresholds ++ [1 / 0])).Pairwise (· < ·) ∧
      partition.branches.length = partition.thresholds.length + 1 ∧
      partition.branches.map (·.range) = Range.between (-1 / 0) partition.thresholds (1 / 0) ∧
      (∀ branch ∈ partition.branches, branch.nodes ≠ []) ∧
      ∃ columns, ∀ branch ∈ partition.branches, branch.nodes.map Node.column = columns) ∧
    root.partitions.Pairwise fun a b => (a.thresholds == b.thresholds) = false := by
  obtain ⟨m, root, h, hroots, hfork⟩ := exists_compile_apart
  have hr : m.Reaches [] root := .root (hroots ▸ List.mem_cons_self)
  exact ⟨m, root, h, hr, hfork, compile_partitions h hr⟩

end

end Population

end FairProgram
