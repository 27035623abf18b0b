import FairProgram.Population.Compile

/-!
# Nodes and the nodes below them

Columns, depth and restriction of a tree, read off the children of its root. An induction over trees
has one case: a node whose children have the property (`Node.induction`). A property that holds at a
node and at every node below it is `Node.All`. The nodes of a model are those that a path of branches
reaches from a root (`PopulationModel.Reaches`).
-/

namespace FairProgram

-- ---------------------------------------------------------------------------
-- Children
-- ---------------------------------------------------------------------------

namespace Node

variable {node child : Node} {c n : Nat}

def children (node : Node) : List Node :=
  node.partitions.flatMap fun partition => partition.branches.flatMap (·.nodes)

theorem mem_children : child ∈ node.children ↔
    ∃ partition ∈ node.partitions, ∃ branch ∈ partition.branches, child ∈ branch.nodes := by
  simp [children]

theorem sizeOf_lt_of_mem_children (h : child ∈ node.children) : sizeOf child < sizeOf node := by
  obtain ⟨⟨_, branches⟩, hp, ⟨_, nodes⟩, hb, hc⟩ := mem_children.mp h
  have hp := List.sizeOf_lt_of_mem hp
  have hb := List.sizeOf_lt_of_mem hb
  have hc := List.sizeOf_lt_of_mem hc
  cases node with
  | mk column name fit partitions =>
    simp only [Node.partitions, Partitioning.mk.sizeOf_spec, Branch.mk.sizeOf_spec,
      mk.sizeOf_spec] at hp hb hc ⊢
    omega

/-- What holds of a node as soon as it holds of its children holds of every node. -/
@[elab_as_elim]
theorem induction {motive : Node → Prop} (node : Node)
    (step : ∀ node : Node, (∀ child ∈ node.children, motive child) → motive node) : motive node :=
  step node fun child h =>
    have := sizeOf_lt_of_mem_children h
    induction child step
termination_by sizeOf node

/-- A property of a node and of every node below it. -/
inductive All (P : Node → Prop) : Node → Prop
  | mk {node : Node} : P node → (∀ child ∈ node.children, All P child) → All P node

namespace All

variable {P Q : Node → Prop}

theorem here (h : All P node) : P node := by
  cases h with
  | mk h _ => exact h

theorem of_child (h : All P node) (hc : child ∈ node.children) : All P child := by
  cases h with
  | mk _ h => exact h child hc

theorem imp (h : All P node) (hpq : ∀ node, P node → Q node) : All Q node := by
  induction h with
  | mk h _ ih => exact .mk (hpq _ h) ih

theorem and (h : All P node) (h' : All Q node) : All (fun node => P node ∧ Q node) node := by
  induction h with
  | mk h _ ih => exact .mk ⟨h, h'.here⟩ fun child hc => ih child hc (h'.of_child hc)

end All

-- ---------------------------------------------------------------------------
-- Columns and depth
-- ---------------------------------------------------------------------------

theorem nodeColumns_eq (nodes : List Node) : nodeColumns nodes = nodes.flatMap columns := by
  induction nodes with
  | nil => rfl
  | cons node rest ih => simp [nodeColumns, ih]

theorem branchColumns_eq (branches : List (Branch Node)) :
    branchColumns branches = branches.flatMap Branch.columns := by
  induction branches with
  | nil => rfl
  | cons branch rest ih => simp [branchColumns, Branch.columns, ih]

theorem partitionColumns_eq (partitions : List (Partitioning Node)) :
    partitionColumns partitions = partitions.flatMap fun partition =>
      branchColumns partition.branches := by
  induction partitions with
  | nil => rfl
  | cons partition rest ih => simp [partitionColumns, ih]

end Node

theorem Branch.mem_columns {branch : Branch Node} {c : Nat} :
    c ∈ branch.columns ↔ ∃ node ∈ branch.nodes, c ∈ node.columns := by
  simp [Branch.columns, Node.nodeColumns_eq]

namespace Node

variable {node child : Node} {c n : Nat}

theorem mem_branchColumns {branches : List (Branch Node)} :
    c ∈ branchColumns branches ↔ ∃ branch ∈ branches, c ∈ branch.columns := by
  simp [branchColumns_eq]

theorem mem_partitionColumns {partitions : List (Partitioning Node)} :
    c ∈ partitionColumns partitions ↔
      ∃ partition ∈ partitions, c ∈ branchColumns partition.branches := by
  simp [partitionColumns_eq]

theorem columns_eq (node : Node) :
    node.columns = node.column :: partitionColumns node.partitions := by
  cases node
  rfl

theorem column_mem_columns (node : Node) : node.column ∈ node.columns := by
  rw [columns_eq]
  exact List.mem_cons_self

theorem mem_columns : c ∈ node.columns ↔
    c = node.column ∨ ∃ child ∈ node.children, c ∈ child.columns := by
  rw [columns_eq, List.mem_cons, mem_partitionColumns]
  simp only [mem_branchColumns, Branch.mem_columns, mem_children]
  constructor
  · rintro (h | ⟨partition, hp, branch, hb, child, hn, hc⟩)
    · exact .inl h
    · exact .inr ⟨child, ⟨partition, hp, branch, hb, hn⟩, hc⟩
  · rintro (h | ⟨child, ⟨partition, hp, branch, hb, hn⟩, hc⟩)
    · exact .inl h
    · exact .inr ⟨partition, hp, branch, hb, child, hn, hc⟩

theorem nodesDepth_le {nodes : List Node} :
    nodesDepth nodes ≤ n ↔ ∀ node ∈ nodes, node.depth < n := by
  induction nodes with
  | nil => simp [nodesDepth]
  | cons node rest ih => rw [nodesDepth, Nat.max_le, ih, List.forall_mem_cons, Nat.succ_le_iff]

theorem branchDepth_le {branches : List (Branch Node)} :
    branchDepth branches ≤ n ↔ ∀ branch ∈ branches, nodesDepth branch.nodes ≤ n := by
  induction branches with
  | nil => simp [branchDepth]
  | cons branch rest ih => rw [branchDepth, Nat.max_le, ih, List.forall_mem_cons]

theorem partitionDepth_le {partitions : List (Partitioning Node)} :
    partitionDepth partitions ≤ n ↔
      ∀ partition ∈ partitions, branchDepth partition.branches ≤ n := by
  induction partitions with
  | nil => simp [partitionDepth]
  | cons partition rest ih => rw [partitionDepth, Nat.max_le, ih, List.forall_mem_cons]

theorem depth_le : node.depth ≤ n ↔ ∀ child ∈ node.children, child.depth < n := by
  have h : node.depth = partitionDepth node.partitions := by cases node; rfl
  rw [h, partitionDepth_le]
  simp only [branchDepth_le, nodesDepth_le, mem_children]
  constructor
  · rintro h child ⟨partition, hp, branch, hb, hc⟩
    exact h partition hp branch hb child hc
  · rintro h partition hp branch hb child hc
    exact h child ⟨partition, hp, branch, hb, hc⟩

end Node

-- ---------------------------------------------------------------------------
-- Restriction
-- ---------------------------------------------------------------------------

def Partitioning.restrict (keep : Nat → Bool) (partition : Partitioning Node) :
    Partitioning Node :=
  ⟨partition.thresholds, partition.branches.map (Branch.restrict keep)⟩

def Partitioning.filled (partition : Partitioning Node) : Bool :=
  partition.branches.all fun branch => !branch.nodes.isEmpty

theorem Partitioning.filled_iff {partition : Partitioning Node} :
    partition.filled = true ↔ ∀ branch ∈ partition.branches, branch.nodes ≠ [] := by
  simp [filled]

namespace Node

section
variable (keep : Nat → Bool)

theorem restrictNodes_eq (nodes : List Node) :
    restrictNodes keep nodes = (nodes.filter fun node => keep node.column).map (restrict keep) := by
  induction nodes with
  | nil => rfl
  | cons node rest ih =>
    rw [restrictNodes, List.filter_cons]
    split
    · rw [ih, List.map_cons]
    · exact ih

theorem restrictBranches_eq (branches : List (Branch Node)) :
    restrictBranches keep branches = branches.map (Branch.restrict keep) := by
  induction branches with
  | nil => rfl
  | cons branch rest ih => rw [restrictBranches, ih, List.map_cons, Branch.restrict]

theorem restrictPartitions_eq (partitions : List (Partitioning Node)) :
    restrictPartitions keep partitions =
      (partitions.map (Partitioning.restrict keep)).filter Partitioning.filled := by
  induction partitions with
  | nil => rfl
  | cons partition rest ih =>
    have hfilled : (partition.restrict keep).filled =
        !(restrictBranches keep partition.branches).any (·.nodes.isEmpty) := by
      rw [restrictBranches_eq, Partitioning.filled, List.not_any_eq_all_not]
      rfl
    rw [restrictPartitions, List.map_cons, List.filter_cons, hfilled, ih]
    split <;> simp_all [Partitioning.restrict, restrictBranches_eq]

variable {keep} {node child : Node} {partition : Partitioning Node} {c : Nat}

@[simp] theorem column_restrict (node : Node) : (node.restrict keep).column = node.column := by
  cases node
  rfl

theorem column_mem_columns_restrict (node : Node) : node.column ∈ (node.restrict keep).columns := by
  have h := (node.restrict keep).column_mem_columns
  rwa [column_restrict] at h

@[simp] theorem fit_restrict (node : Node) : (node.restrict keep).fit = node.fit := by
  cases node
  rfl

theorem partitions_restrict (node : Node) : (node.restrict keep).partitions =
    (node.partitions.map (Partitioning.restrict keep)).filter Partitioning.filled := by
  cases node
  exact restrictPartitions_eq keep _

theorem mem_partitions_restrict : partition ∈ (node.restrict keep).partitions ↔
    ∃ original ∈ node.partitions, original.restrict keep = partition ∧ partition.filled = true := by
  rw [partitions_restrict, List.mem_filter, List.mem_map]
  constructor
  · rintro ⟨⟨original, ho, rfl⟩, hf⟩
    exact ⟨original, ho, rfl, hf⟩
  · rintro ⟨original, ho, rfl, hf⟩
    exact ⟨⟨original, ho, rfl⟩, hf⟩

theorem mem_restrictNodes {nodes : List Node} : child ∈ restrictNodes keep nodes ↔
    ∃ original ∈ nodes, keep original.column = true ∧ original.restrict keep = child := by
  rw [restrictNodes_eq, List.mem_map]
  simp only [List.mem_filter, and_assoc]

/-- The children that a restriction leaves are restrictions of children that are kept. -/
theorem exists_of_mem_children_restrict (h : child ∈ (node.restrict keep).children) :
    ∃ original ∈ node.children, keep original.column = true ∧ original.restrict keep = child := by
  obtain ⟨partition, hp, branch, hb, hc⟩ := mem_children.mp h
  obtain ⟨whole, hw, rfl, -⟩ := mem_partitions_restrict.mp hp
  obtain ⟨full, hf, rfl⟩ := List.mem_map.mp hb
  obtain ⟨original, ho, hk, rfl⟩ := mem_restrictNodes.mp hc
  exact ⟨original, mem_children.mpr ⟨whole, hw, full, hf, ho⟩, hk, rfl⟩

theorem columns_restrict_subset (node : Node) : (node.restrict keep).columns ⊆ node.columns := by
  induction node using induction with
  | step node ih =>
    intro c hc
    obtain rfl | ⟨child, hchild, hc⟩ := mem_columns.mp hc
    · rw [column_restrict]
      exact node.column_mem_columns
    · obtain ⟨original, ho, -, rfl⟩ := exists_of_mem_children_restrict hchild
      exact mem_columns.mpr (.inr ⟨original, ho, ih original ho hc⟩)

theorem depth_restrict_le (node : Node) : (node.restrict keep).depth ≤ node.depth := by
  induction node using induction with
  | step node ih =>
    refine depth_le.mpr fun child hc => ?_
    obtain ⟨original, ho, -, rfl⟩ := exists_of_mem_children_restrict hc
    exact Nat.lt_of_le_of_lt (ih original ho) (depth_le.mp (Nat.le_refl _) original ho)

/-- A property that every restriction keeps is kept at all nodes of a restricted tree. -/
theorem All.restrict {P : Node → Prop} (h : node.All P)
    (hr : ∀ node, P node → P (node.restrict keep)) : (node.restrict keep).All P := by
  induction h with
  | mk h _ ih =>
    refine .mk (hr _ h) fun child hc => ?_
    obtain ⟨original, ho, -, rfl⟩ := exists_of_mem_children_restrict hc
    exact ih original ho

/-- No partition at a node or below it has a branch without nodes. -/
def Filled (node : Node) : Prop :=
  node.All fun node => ∀ partition ∈ node.partitions, partition.filled = true

theorem filled_restrict (node : Node) : (node.restrict keep).Filled := by
  induction node using induction with
  | step node ih =>
    refine .mk (fun partition hp => ?_) fun child hc => ?_
    · obtain ⟨-, -, -, hf⟩ := mem_partitions_restrict.mp hp
      exact hf
    · obtain ⟨original, ho, -, rfl⟩ := exists_of_mem_children_restrict hc
      exact ih original ho

theorem restrictNodes_eq_self {nodes : List Node} (hk : ∀ node ∈ nodes, keep node.column = true)
    (hr : ∀ node ∈ nodes, node.restrict keep = node) : restrictNodes keep nodes = nodes := by
  rw [restrictNodes_eq, List.filter_eq_self.mpr hk]
  exact (List.map_congr_left hr).trans (List.map_id' nodes)

/-- Keeping all columns below a node changes nothing, unless a branch without nodes goes. -/
theorem restrict_eq_self (node : Node) (hf : node.Filled)
    (hk : ∀ child ∈ node.children, ∀ c ∈ child.columns, keep c = true) :
    node.restrict keep = node := by
  induction node using induction with
  | step node ih =>
    have hbranch : ∀ partition ∈ node.partitions, ∀ branch ∈ partition.branches,
        branch.restrict keep = branch := by
      intro partition hp branch hb
      have hmem {child : Node} (hc : child ∈ branch.nodes) : child ∈ node.children :=
        mem_children.mpr ⟨partition, hp, branch, hb, hc⟩
      have hnodes : restrictNodes keep branch.nodes = branch.nodes := by
        refine restrictNodes_eq_self (fun child hc => ?_) fun child hc => ?_
        · exact hk child (hmem hc) child.column child.column_mem_columns
        · refine ih child (hmem hc) (hf.of_child (hmem hc)) fun below hb c hc' => ?_
          exact hk child (hmem hc) c (mem_columns.mpr (.inr ⟨below, hb, hc'⟩))
      rw [Branch.restrict, hnodes]
    have hmap : node.partitions.map (Partitioning.restrict keep) = node.partitions := by
      refine (List.map_congr_left fun partition hp => ?_).trans (List.map_id' _)
      rw [Partitioning.restrict, List.map_congr_left (hbranch partition hp), List.map_id']
    have hfilter : node.partitions.filter Partitioning.filled = node.partitions :=
      List.filter_eq_self.mpr hf.here
    cases node with
    | mk column name fit partitions =>
      rw [restrict, restrictPartitions_eq]
      exact congrArg (mk column name fit) ((congrArg _ hmap).trans hfilter)

end

end Node

theorem Branch.columns_restrict_subset {keep : Nat → Bool} (branch : Branch Node) :
    (branch.restrict keep).columns ⊆ branch.columns := by
  intro c hc
  obtain ⟨node, hn, hc⟩ := Branch.mem_columns.mp hc
  obtain ⟨original, ho, -, rfl⟩ := Node.mem_restrictNodes.mp hn
  exact Branch.mem_columns.mpr ⟨original, ho, original.columns_restrict_subset hc⟩

theorem Branch.restrict_eq_self {keep : Nat → Bool} {branch : Branch Node}
    (hf : ∀ node ∈ branch.nodes, node.Filled) (hk : ∀ c ∈ branch.columns, keep c = true) :
    branch.restrict keep = branch := by
  have hkeep : ∀ node ∈ branch.nodes, ∀ c ∈ node.columns, keep c = true :=
    fun node hn c hc => hk c (Branch.mem_columns.mpr ⟨node, hn, hc⟩)
  have hnodes : Node.restrictNodes keep branch.nodes = branch.nodes := by
    refine Node.restrictNodes_eq_self (fun node hn => ?_) fun node hn => ?_
    · exact hkeep node hn node.column node.column_mem_columns
    · refine node.restrict_eq_self (hf node hn) fun child hchild c hc => ?_
      exact hkeep node hn c (Node.mem_columns.mpr (.inr ⟨child, hchild, hc⟩))
  rw [Branch.restrict, hnodes]

-- ---------------------------------------------------------------------------
-- Paths
-- ---------------------------------------------------------------------------

namespace PopulationModel

/-- A node of a model, with the columns and ranges of the branches that lead to it from a root. -/
inductive Reaches (m : PopulationModel) : List (Nat × Range) → Node → Prop
  | root {node : Node} : node ∈ m.roots → Reaches m [] node
  | branch {path : List (Nat × Range)} {node child : Node} {partition : Partitioning Node}
      {branch : Branch Node} :
      Reaches m path node → partition ∈ node.partitions → branch ∈ partition.branches →
      child ∈ branch.nodes → Reaches m (path ++ [(node.column, branch.range)]) child

variable {m : PopulationModel} {path : List (Nat × Range)} {node : Node}

theorem Reaches.all {P : Node → Prop} (h : ∀ root ∈ m.roots, root.All P)
    (hr : m.Reaches path node) : node.All P := by
  induction hr with
  | root hroot => exact h _ hroot
  | branch _ hp hb hc ih => exact ih.of_child (Node.mem_children.mpr ⟨_, hp, _, hb, hc⟩)

theorem all_iff_reaches {P : Node → Prop} : (∀ root ∈ m.roots, root.All P) ↔
    ∀ path node, m.Reaches path node → P node := by
  constructor
  · exact fun h path node hr => (hr.all h).here
  · intro h
    have hall (node : Node) : ∀ path, m.Reaches path node → node.All P := by
      induction node using Node.induction with
      | step node ih =>
        refine fun path hr => .mk (h path node hr) fun child hc => ?_
        obtain ⟨partition, hp, branch, hb, hmem⟩ := Node.mem_children.mp hc
        exact ih child hc _ (.branch hr hp hb hmem)
    exact fun root hroot => hall root [] (.root hroot)

theorem depth_le {n : Nat} (h : ∀ root ∈ m.roots, root.depth ≤ n) : m.depth ≤ n := by
  have hfold : ∀ roots : List Node, (∀ root ∈ roots, root.depth ≤ n) → ∀ deepest ≤ n,
      roots.foldl (fun deepest node => max deepest node.depth) deepest ≤ n := by
    intro roots hroots
    induction roots with
    | nil => exact fun _ hle => hle
    | cons root rest ih =>
      intro deepest hle
      exact ih (fun other ho => hroots other (List.mem_cons_of_mem _ ho)) _
        (Nat.max_le.mpr ⟨hle, hroots root List.mem_cons_self⟩)
  exact hfold m.roots h 0 (Nat.zero_le n)

end PopulationModel

end FairProgram
