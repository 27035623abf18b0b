import FairProgram.Proofs.Partition.Buckets
import FairProgram.Proofs.Population.Growth

/-!
# The shape of population models

Every partition of a compiled model covers the line with ranges, all its branches list the same
columns in increasing order, and no column has two places on one path (`compile_shaped`).
-/

namespace FairProgram

/-- Nodes side by side: in increasing order of column, without a column in common. -/
def Node.Before (a b : Node) : Prop :=
  a.column < b.column ∧ a.columns.Disjoint b.columns

def Partitioning.columns (partition : Partitioning Node) : List Nat :=
  Node.branchColumns partition.branches

/-- A partition at a node of a column. -/
structure Partitioning.Shaped (column : Nat) (partition : Partitioning Node) : Prop
    extends partition.Covers where
  several : 1 < partition.branches.length
  filled : partition.filled = true
  listed : ∃ columns, ∀ branch ∈ partition.branches, branch.nodes.map Node.column = columns
  later : ∀ branch ∈ partition.branches, ∀ child ∈ branch.nodes, column < child.column
  ordered : ∀ branch ∈ partition.branches, branch.nodes.Pairwise Node.Before

structure Node.Shaped (d : Dataset) (node : Node) : Prop where
  column_lt : node.column < d.width
  partitions : ∀ partition ∈ node.partitions, partition.Shaped node.column
  apart : node.partitions.Pairwise fun a b => a.columns.Disjoint b.columns

theorem Node.Shaped.covers {d : Dataset} {node : Node} (h : node.Shaped d) :
    ∀ partition ∈ node.partitions, partition.Covers :=
  fun partition hp => (h.partitions partition hp).toCovers

-- ---------------------------------------------------------------------------
-- Restriction
-- ---------------------------------------------------------------------------

section
variable {d : Dataset} {parent : Nat} {keep : Nat → Bool} {node : Node}
  {partition : Partitioning Node}

theorem Partitioning.ranges_restrict (keep : Nat → Bool) (partition : Partitioning Node) :
    (partition.restrict keep).branches.map (·.range) = partition.branches.map (·.range) :=
  List.map_map

theorem Partitioning.Covers.restrict (h : partition.Covers) : (partition.restrict keep).Covers where
  chain := partition.ranges_restrict keep ▸ h.chain
  thresholds_eq := partition.ranges_restrict keep ▸ h.thresholds_eq

theorem Node.map_column_restrictNodes (keep : Nat → Bool) (nodes : List Node) :
    (restrictNodes keep nodes).map column = (nodes.map column).filter keep := by
  rw [restrictNodes_eq, List.map_map, List.filter_map]
  exact List.map_congr_left fun node _ => column_restrict node

theorem Node.pairwise_restrictNodes {nodes : List Node} (h : nodes.Pairwise Before) :
    (restrictNodes keep nodes).Pairwise Before := by
  rw [restrictNodes_eq, List.pairwise_map]
  refine (h.filter _).imp fun {a b} hab => ⟨?_, ?_⟩
  · rw [column_restrict, column_restrict]
    exact hab.1
  · exact fun c ha hb => hab.2 (a.columns_restrict_subset ha) (b.columns_restrict_subset hb)

theorem Partitioning.columns_restrict_subset (keep : Nat → Bool) (partition : Partitioning Node) :
    (partition.restrict keep).columns ⊆ partition.columns := by
  intro c hc
  obtain ⟨branch, hb, hc⟩ := Node.mem_branchColumns.mp hc
  obtain ⟨original, ho, rfl⟩ := List.mem_map.mp hb
  exact Node.mem_branchColumns.mpr ⟨original, ho, original.columns_restrict_subset hc⟩

theorem Partitioning.Shaped.restrict (h : partition.Shaped parent)
    (hf : (partition.restrict keep).filled = true) : (partition.restrict keep).Shaped parent where
  toCovers := h.toCovers.restrict
  several := by simpa [Partitioning.restrict] using h.several
  filled := hf
  listed := by
    obtain ⟨columns, hcolumns⟩ := h.listed
    refine ⟨columns.filter keep, fun branch hb => ?_⟩
    obtain ⟨original, ho, rfl⟩ := List.mem_map.mp hb
    rw [← hcolumns original ho]
    exact Node.map_column_restrictNodes keep original.nodes
  later := by
    intro branch hb child hc
    obtain ⟨original, ho, rfl⟩ := List.mem_map.mp hb
    obtain ⟨source, hs, -, rfl⟩ := Node.mem_restrictNodes.mp hc
    rw [Node.column_restrict]
    exact h.later original ho source hs
  ordered := by
    intro branch hb
    obtain ⟨original, ho, rfl⟩ := List.mem_map.mp hb
    exact Node.pairwise_restrictNodes (h.ordered original ho)

theorem Node.Shaped.restrict (h : node.Shaped d) : (node.restrict keep).Shaped d where
  column_lt := (column_restrict node).symm ▸ h.column_lt
  partitions := by
    intro partition hp
    obtain ⟨original, ho, rfl, hf⟩ := mem_partitions_restrict.mp hp
    rw [column_restrict]
    exact (h.partitions original ho).restrict hf
  apart := by
    rw [partitions_restrict]
    refine (List.pairwise_map.mpr (h.apart.imp fun {a b} hab => ?_)).filter _
    exact fun c ha hb => hab (a.columns_restrict_subset keep ha) (b.columns_restrict_subset keep hb)

end

-- ---------------------------------------------------------------------------
-- Added branches
-- ---------------------------------------------------------------------------

section
variable {d : Dataset} {parent : Nat} {thresholds : List Float} {added : List (Branch Node)}
  {node : Node} {c : Nat}

theorem Partitioning.mem_columns {partition : Partitioning Node} :
    c ∈ partition.columns ↔ ∃ branch ∈ partition.branches, ∃ child ∈ branch.nodes,
      c ∈ child.columns := by
  simp only [columns, Node.mem_branchColumns, Branch.mem_columns]

theorem Partitioning.Shaped.merge {first : Partitioning Node} (hfirst : first.Shaped parent)
    (hadded : Partitioning.Shaped parent ⟨thresholds, added⟩)
    (hsame : (first.thresholds == thresholds) = true)
    (hbefore : ∀ old ∈ first.branches, ∀ a ∈ old.nodes, ∀ new ∈ added, ∀ b ∈ new.nodes,
      a.Before b) :
    Partitioning.Shaped parent ⟨first.thresholds, Node.mergeBranches first.branches added⟩ := by
  have halike := Node.ranges_alike hfirst.toCovers hadded.toCovers hsame
  have hranges := Node.ranges_mergeBranches first.branches added
  refine
    { chain := hranges ▸ hfirst.chain
      thresholds_eq := hranges ▸ hfirst.thresholds_eq
      several := ?_
      filled := ?_
      listed := ?_
      later := ?_
      ordered := ?_ }
  · have hlen := congrArg List.length hranges
    rw [List.length_map, List.length_map] at hlen
    exact hlen ▸ hfirst.several
  · refine filled_iff.mpr fun branch hb => ?_
    obtain ⟨old, ho, new, -, -, rfl⟩ := Node.exists_of_mem_mergeBranches halike hb
    exact List.append_ne_nil_of_left_ne_nil (filled_iff.mp hfirst.filled old ho) _
  · obtain ⟨columns, hcolumns⟩ := hfirst.listed
    obtain ⟨others, hothers⟩ := hadded.listed
    refine ⟨columns ++ others, fun branch hb => ?_⟩
    obtain ⟨old, ho, new, hn, -, rfl⟩ := Node.exists_of_mem_mergeBranches halike hb
    rw [List.map_append, hcolumns old ho, hothers new hn]
  · intro branch hb child hc
    obtain ⟨old, ho, new, hn, -, rfl⟩ := Node.exists_of_mem_mergeBranches halike hb
    obtain hc | hc := List.mem_append.mp hc
    · exact hfirst.later old ho child hc
    · exact hadded.later new hn child hc
  · intro branch hb
    obtain ⟨old, ho, new, hn, -, rfl⟩ := Node.exists_of_mem_mergeBranches halike hb
    exact List.pairwise_append.mpr ⟨hfirst.ordered old ho, hadded.ordered new hn,
      fun a ha b hb => hbefore old ho a ha new hn b hb⟩

theorem Partitioning.shaped_of_sprouts {R : Range → Node → Prop} {column : Nat}
    (hcovers : Partitioning.Covers ⟨thresholds, added⟩) (hseveral : 1 < added.length)
    (h : ∀ branch ∈ added, Population.IsSprout R column branch) (hlt : parent < column) :
    Partitioning.Shaped parent ⟨thresholds, added⟩ where
  toCovers := hcovers
  several := hseveral
  filled := by
    refine filled_iff.mpr fun branch hb => ?_
    obtain ⟨node, hn, -⟩ := h branch hb
    rw [hn]
    exact List.cons_ne_nil _ _
  listed := by
    refine ⟨[column], fun branch hb => ?_⟩
    obtain ⟨node, hn, hc, -⟩ := h branch hb
    rw [hn, List.map_singleton, hc]
  later := by
    intro branch hb child hchild
    rw [((h branch hb).of_mem hchild).1]
    exact hlt
  ordered := by
    intro branch hb
    obtain ⟨node, hn, -⟩ := h branch hb
    rw [hn]
    exact List.pairwise_singleton _ _

theorem Node.Shaped.addBranches (hnode : node.Shaped d)
    (hadded : Partitioning.Shaped node.column ⟨thresholds, added⟩)
    (hbefore : ∀ child ∈ node.children, ∀ new ∈ added, ∀ b ∈ new.nodes, child.Before b) :
    (node.addBranches thresholds added).Shaped d := by
  -- The columns of the branches are in no partition that the node has.
  have hfresh : ∀ partition ∈ node.partitions, partition.columns.Disjoint
      (Partitioning.columns ⟨thresholds, added⟩) := by
    intro partition hp c hc hc'
    obtain ⟨branch, hb, child, hchild, hc⟩ := Partitioning.mem_columns.mp hc
    obtain ⟨new, hn, b, hb', hc'⟩ := Partitioning.mem_columns.mp hc'
    exact (hbefore child (mem_children.mpr ⟨partition, hp, branch, hb, hchild⟩) new hn b hb').2
      hc hc'
  refine ⟨?_, ?_, ?_⟩
  · rw [column_addBranches]
    exact hnode.column_lt
  · rw [column_addBranches]
    refine forall_partitions_addBranches hnode.partitions hadded fun first hfirst hsame => ?_
    exact (hnode.partitions first hfirst).merge hadded hsame fun old ho a ha =>
      hbefore a (mem_children.mpr ⟨first, hfirst, old, ho, ha⟩)
  obtain heq | ⟨before, first, after, hparts, hsame, heq⟩ :=
    partitions_addBranches thresholds added node
  · rw [heq]
    refine List.pairwise_append.mpr ⟨hnode.apart, List.pairwise_singleton _ _, ?_⟩
    intro partition hp other ho
    obtain rfl := List.mem_singleton.mp ho
    exact hfresh partition hp
  · have hfirst : first ∈ node.partitions := by rw [hparts]; simp
    have hcolumns : ∀ partition ∈ node.partitions, partition.columns.Disjoint first.columns →
        partition.columns.Disjoint
          (Partitioning.columns ⟨first.thresholds, mergeBranches first.branches added⟩) := by
      intro partition hp hdisjoint c hc hc'
      obtain ⟨branch, hb, child, hchild, hc'⟩ := Partitioning.mem_columns.mp hc'
      obtain ⟨old, ho, new, hn, -, rfl⟩ := exists_of_mem_mergeBranches
        (ranges_alike (hnode.covers first hfirst) hadded.toCovers hsame) hb
      obtain hchild | hchild := List.mem_append.mp hchild
      · exact hdisjoint hc (Partitioning.mem_columns.mpr ⟨old, ho, child, hchild, hc'⟩)
      · exact hfresh partition hp hc (Partitioning.mem_columns.mpr ⟨new, hn, child, hchild, hc'⟩)
    have hmem : ∀ partition, partition ∈ before ∨ partition ∈ after → partition ∈ node.partitions := by
      intro partition hp
      rw [hparts, List.mem_append, List.mem_cons]
      exact hp.imp_right .inr
    obtain ⟨hbeforeApart, hrest, hcross⟩ := List.pairwise_append.mp (hparts ▸ hnode.apart)
    obtain ⟨hfirstApart, hafterApart⟩ := List.pairwise_cons.mp hrest
    rw [heq]
    refine List.pairwise_append.mpr ⟨hbeforeApart, List.pairwise_cons.mpr ⟨?_, hafterApart⟩, ?_⟩
    · intro other ho
      exact List.disjoint_symm
        (hcolumns other (hmem other (.inr ho)) (List.disjoint_symm (hfirstApart other ho)))
    · intro partition hp other ho
      obtain rfl | ho := List.mem_cons.mp ho
      · exact hcolumns partition (hmem partition (.inl hp))
          (hcross partition hp first List.mem_cons_self)
      · exact hcross partition hp other (List.mem_cons_of_mem _ ho)

end

-- ---------------------------------------------------------------------------
-- Growth
-- ---------------------------------------------------------------------------

namespace Node.All

variable {d : Dataset} {node child : Node} {c : Nat}

theorem lt_column_of_child (h : node.All (Node.Shaped d)) (hc : child ∈ node.children) :
    node.column < child.column := by
  obtain ⟨partition, hp, branch, hb, hchild⟩ := mem_children.mp hc
  exact (h.here.partitions partition hp).later branch hb child hchild

theorem column_le (h : node.All (Node.Shaped d)) (hc : c ∈ node.columns) : node.column ≤ c := by
  induction node using Node.induction with
  | step node ih =>
    obtain rfl | ⟨child, hchild, hc⟩ := mem_columns.mp hc
    · exact Nat.le_refl _
    · exact Nat.le_trans (Nat.le_of_lt (h.lt_column_of_child hchild))
        (ih child hchild (h.of_child hchild) hc)

theorem lt_width (h : node.All (Node.Shaped d)) (hc : c ∈ node.columns) : c < d.width := by
  induction node using Node.induction with
  | step node ih =>
    obtain rfl | ⟨child, hchild, hc⟩ := mem_columns.mp hc
    · exact h.here.column_lt
    · exact ih child hchild (h.of_child hchild) hc

theorem toFilled (h : node.All (Node.Shaped d)) : node.Filled :=
  h.imp fun _ hs partition hp => (hs.partitions partition hp).filled

end Node.All

namespace Population

/-- What a growth keeps: the columns modelled are those at its start and those of its tree, and the
tree has no column of the start below its root. -/
structure ShapedGrowth (d : Dataset) (levels : Nat) (first : Growth) (next : Nat)
    (growth : Growth) : Prop where
  shaped : growth.node.All (Node.Shaped d)
  modelled : ∀ c, growth.modelled.contains c = true ↔
    first.modelled.contains c = true ∨ c ∈ growth.node.columns
  fresh : ∀ child ∈ growth.node.children, ∀ c ∈ child.columns, first.modelled.contains c = false
  earlier : ∀ child ∈ growth.node.children, child.column < next
  depth_le : growth.node.depth ≤ levels

/-- A node that can be attached to a growth for a column. -/
structure Sprouted (d : Dataset) (levels : Nat) (growth : Growth) (column : Nat) (node : Node) :
    Prop where
  shaped : node.All (Node.Shaped d)
  depth_le : node.depth ≤ levels
  fresh : ∀ c ∈ node.columns, c = column ∨ growth.modelled.contains c = false

section
variable {p : Params} {d : Dataset} {levels : Nat} {rows : List Nat} {first growth : Growth}
  {subject : Column} {next : Nat} {refinement : Refinement}

theorem Start.shaped (levels : Nat) (h : Start p d rows first) :
    ShapedGrowth d levels first (first.node.column + 1) first := by
  refine ⟨.mk ⟨h.column_lt, by simp [h.leaf], by simp [h.leaf]⟩ (by simp [h.children]), fun c => ?_,
    by simp [h.children], by simp [h.children], Node.depth_le.mpr (by simp [h.children])⟩
  rw [Node.mem_columns]
  constructor
  · exact .inl
  · rintro (hc | rfl | ⟨child, hchild, -⟩)
    · exact hc
    · exact h.modelled
    · simp [h.children] at hchild

theorem ShapedGrowth.skip (h : ShapedGrowth d levels first next growth) :
    ShapedGrowth d levels first (next + 1) growth :=
  { h with earlier := fun child hc => Nat.lt_succ_of_lt (h.earlier child hc) }

theorem Sprouted.restrict {keep : Nat → Bool} {node : Node} (h : Sprouted d levels growth next node) :
    Sprouted d levels growth next (node.restrict keep) where
  shaped := h.shaped.restrict fun _ hs => hs.restrict
  depth_le := Nat.le_trans node.depth_restrict_le h.depth_le
  fresh := fun c hc => h.fresh c (node.columns_restrict_subset hc)

theorem ShapedGrowth.sprouted (ha : Attaches p d rows first growth subject next refinement)
    {bucket : RefinedBucket} {grown : Growth} (hcolumn : grown.node.column = next)
    (h : ShapedGrowth d levels (sprout growth (subject, next) bucket) d.width grown) :
    Sprouted d levels growth next grown.node where
  shaped := h.shaped
  depth_le := h.depth_le
  fresh := by
    intro c hc
    obtain rfl | ⟨child, hchild, hc⟩ := Node.mem_columns.mp hc
    · exact .inl hcolumn
    · refine .inr (Bool.eq_false_iff.mpr fun hm => Bool.eq_false_iff.mp (h.fresh child hchild c hc) ?_)
      exact (ColumnSet.contains_insert_iff (ha.bound ▸ ha.index_lt)).mpr (.inr hm)

/-- Attached nodes come after the children that a growth has. -/
theorem ShapedGrowth.before (ha : Attaches p d rows first growth subject next refinement)
    (h : ShapedGrowth d (levels + 1) first next growth) {node child : Node}
    (hcolumn : node.column = next) (hnode : Sprouted d levels growth next node)
    (hchild : child ∈ growth.node.children) : child.Before node := by
  refine ⟨hcolumn ▸ h.earlier child hchild, fun c hc hc' => ?_⟩
  have hm := (h.modelled c).mpr (.inr (Node.mem_columns.mpr (.inr ⟨child, hchild, hc⟩)))
  obtain rfl | hf := hnode.fresh c hc'
  · exact Bool.eq_false_iff.mp ha.fresh hm
  · exact Bool.eq_false_iff.mp hf hm

theorem ShapedGrowth.attach (hd : d.Finite)
    (ha : Attaches p d rows first growth subject next refinement)
    (h : ShapedGrowth d (levels + 1) first next growth)
    (hb : ∀ bucket ∈ refinement.buckets, ShapedGrowth d levels
      (sprout growth (subject, next) bucket) d.width
      (grow p d levels (d.filterRows growth.node.column rows bucket.range.contains)
        (sprout growth (subject, next) bucket))) :
    ShapedGrowth d (levels + 1) first (next + 1)
      (Population.attach d (grow p d levels) rows growth (subject, next) refinement) := by
  obtain ⟨added, agreed, hagree, hattach, hcovers, hseveral, hadded⟩ := ha.sprouts_ok hd levels
    (R := fun _ node => Sprouted d levels growth next node)
    (fun bucket hbucket => (hb bucket hbucket).sprouted ha
      (column_grow hd levels (ha.start_sprout hbucket)))
    (fun _ _ _ h => h.restrict)
  rw [hattach]
  have hnew : ∀ new ∈ added, ∀ node ∈ new.nodes,
      node.column = next ∧ Sprouted d levels growth next node :=
    fun new hn node hnode => (hadded new hn).of_mem hnode
  have hshaped := h.shaped.here.addBranches
    (Partitioning.shaped_of_sprouts hcovers hseveral hadded ha.later)
    fun child hchild new hn node hnode =>
      h.before ha (hnew new hn node hnode).1 (hnew new hn node hnode).2 hchild
  have hcover := h.shaped.here.covers
  have hchild {child : Node}
      (hc : child ∈ (growth.node.addBranches refinement.thresholds added).children) :
      child ∈ growth.node.children ∨
        child.column = next ∧ Sprouted d levels growth next child := by
    obtain hc | ⟨new, hn, hc⟩ := (Node.mem_children_addBranches hcover hcovers).mp hc
    · exact .inl hc
    · exact .inr (hnew new hn child hc)
  refine ⟨.mk hshaped fun child hc => ?_, fun c => ?_, fun child hc c hm => ?_,
    fun child hc => ?_, Node.depth_le.mpr fun child hc => ?_⟩
  · obtain hc | ⟨-, hs⟩ := hchild hc
    · exact h.shaped.of_child hc
    · exact hs.shaped
  · obtain ⟨hbound, hmem⟩ := ha.mem_agreed hagree
      fun bucket hbucket => (hb bucket hbucket).shaped.toFilled
    obtain ⟨some, hsome⟩ := List.exists_mem_of_length_pos (Nat.zero_lt_of_lt hseveral)
    rw [ha.contains_union hbound ((hmem some hsome next).mp (hadded some hsome).column_mem),
      h.modelled, Node.mem_columns_addBranches hcover hcovers, or_assoc]
    refine or_congr Iff.rfl (or_congr Iff.rfl ⟨fun hc => ?_, ?_⟩)
    · exact ⟨some, hsome, (hmem some hsome c).mpr hc⟩
    · rintro ⟨branch, hbranch, hc⟩
      exact (hmem branch hbranch c).mp hc
  · obtain hc | ⟨-, hs⟩ := hchild hc
    · exact h.fresh child hc c hm
    · have hfresh : growth.modelled.contains c = false := by
        obtain rfl | hf := hs.fresh c hm
        · exact ha.fresh
        · exact hf
      exact Bool.eq_false_iff.mpr fun hfirst =>
        Bool.eq_false_iff.mp hfresh ((h.modelled c).mpr (.inl hfirst))
  · obtain hc | ⟨hcolumn, -⟩ := hchild hc
    · exact Nat.lt_succ_of_lt (h.earlier child hc)
    · exact hcolumn ▸ Nat.lt_succ_self _
  · obtain hc | ⟨-, hs⟩ := hchild hc
    · exact Node.depth_le.mp h.depth_le child hc
    · exact Nat.lt_succ_of_le hs.depth_le

theorem grow_shaped (hd : d.Finite) (levels : Nat) (hs : Start p d rows first) :
    ShapedGrowth d levels first d.width (grow p d levels rows first) :=
  grow_induction (I := fun levels _ => ShapedGrowth d levels) hd (fun levels _ _ hs => hs.shaped levels)
    (fun _ _ _ _ _ _ h => h.skip)
    (fun _ _ _ _ _ _ _ ha h hb => h.attach hd ha hb) levels hs

end

-- ---------------------------------------------------------------------------
-- Compiled models
-- ---------------------------------------------------------------------------

/-- What the forest keeps: it models the columns up to the next one, each at one root. -/
structure ShapedForest (p : Params) (d : Dataset) (next : Nat) (forest : Forest) : Prop where
  shaped : ∀ root ∈ forest.roots, root.All (Node.Shaped d)
  ordered : forest.roots.Pairwise Node.Before
  modelled : ∀ c, forest.modelled.contains c = true ↔ ∃ root ∈ forest.roots, c ∈ root.columns
  earlier : ∀ root ∈ forest.roots, root.column < next
  complete : ∀ c < next, forest.modelled.contains c = true
  depth_le : ∀ root ∈ forest.roots, root.depth ≤ p.maxDepth

section
variable {p : Params} {d : Dataset} {m : PopulationModel}

theorem ShapedForest.plant {next : Nat} {forest : Forest} {first grown : Growth}
    (hb : forest.modelled.bound = d.width) (hfresh : forest.modelled.contains next = false)
    (hcolumn : grown.node.column = next) (hnext : next < d.width)
    (hfirst : first.modelled = forest.modelled.insert next)
    (hgrown : ShapedGrowth d p.maxDepth first d.width grown) (h : ShapedForest p d next forest) :
    ShapedForest p d (next + 1) ⟨forest.roots ++ [grown.node], grown.modelled⟩ := by
  have hinsert (c : Nat) : first.modelled.contains c = true ↔
      c = next ∨ forest.modelled.contains c = true := by
    rw [hfirst, ColumnSet.contains_insert_iff (hb ▸ hnext)]
  have hmodelled (c : Nat) : grown.modelled.contains c = true ↔
      forest.modelled.contains c = true ∨ c ∈ grown.node.columns := by
    rw [hgrown.modelled, hinsert]
    constructor
    · rintro ((rfl | hc) | hc)
      · exact .inr (hcolumn ▸ grown.node.column_mem_columns)
      · exact .inl hc
      · exact .inr hc
    · rintro (hc | hc)
      · exact .inl (.inr hc)
      · exact .inr hc
  have hbefore : ∀ root ∈ forest.roots, root.Before grown.node := by
    intro root hroot
    refine ⟨hcolumn ▸ h.earlier root hroot, fun c hc hc' => ?_⟩
    have hm := (h.modelled c).mpr ⟨root, hroot, hc⟩
    obtain rfl | ⟨child, hchild, hc'⟩ := Node.mem_columns.mp hc'
    · exact Bool.eq_false_iff.mp hfresh (hcolumn ▸ hm)
    · exact Bool.eq_false_iff.mp (hgrown.fresh child hchild c hc') ((hinsert c).mpr (.inr hm))
  have hroot {P : Node → Prop} (hold : ∀ root ∈ forest.roots, P root) (hnew : P grown.node) :
      ∀ root ∈ forest.roots ++ [grown.node], P root :=
    List.forall_mem_append.mpr ⟨hold, List.forall_mem_singleton.mpr hnew⟩
  refine ⟨hroot h.shaped hgrown.shaped, ?_, fun c => ?_,
    hroot (fun root hr => Nat.lt_succ_of_lt (h.earlier root hr)) (hcolumn ▸ Nat.lt_succ_self _),
    fun c hc => (hmodelled c).mpr ?_, hroot h.depth_le hgrown.depth_le⟩
  · refine List.pairwise_append.mpr ⟨h.ordered, List.pairwise_singleton _ _, ?_⟩
    intro root hr other ho
    exact List.mem_singleton.mp ho ▸ hbefore root hr
  · rw [hmodelled, h.modelled]
    constructor
    · rintro (⟨root, hr, hc⟩ | hc)
      · exact ⟨root, List.mem_append_left _ hr, hc⟩
      · exact ⟨grown.node, List.mem_append_right _ List.mem_cons_self, hc⟩
    · rintro ⟨root, hr, hc⟩
      obtain hr | hr := List.mem_append.mp hr
      · exact .inl ⟨root, hr, hc⟩
      · exact .inr (List.mem_singleton.mp hr ▸ hc)
  · obtain hc | rfl := Nat.lt_succ_iff_lt_or_eq.mp hc
    · exact .inl (h.complete c hc)
    · exact .inr (hcolumn ▸ grown.node.column_mem_columns)

theorem forest_shaped (hd : d.Finite) (hr : d.rows ≠ 0) :
    ShapedForest p d d.width (forest p d) := by
  refine forest_induction hd hr ?_ ?_ ?_
  · exact ⟨by simp, .nil, by simp, by simp, by simp, by simp⟩
  · rintro next forest hm h
    refine { h with
      earlier := fun root hroot => Nat.lt_succ_of_lt (h.earlier root hroot)
      complete := fun c hc => ?_ }
    obtain hc | rfl := Nat.lt_succ_iff_lt_or_eq.mp hc
    · exact h.complete c hc
    · exact hm
  · rintro next forest first hb hfresh rfl hfirst hs h
    exact h.plant hb hfresh (column_grow hd _ hs) hs.column_lt hfirst (grow_shaped hd _ hs)

theorem compile_shaped (h : compile p d = .ok m) :
    ShapedForest p d d.width ⟨m.roots, (forest p d).modelled⟩ := by
  obtain ⟨-, hr, hd, rfl⟩ := compile_eq_ok_iff.mp h
  exact forest_shaped hd hr

theorem pairwise_columns {path : List (Nat × Range)} {node : Node}
    (h : ∀ root ∈ m.roots, root.All (Node.Shaped d)) (hr : m.Reaches path node) :
    (path.map (·.1) ++ [node.column]).Pairwise (· < ·) := by
  induction hr with
  | root => exact List.pairwise_singleton _ _
  | @branch path node child partition branch hr hp hb hc ih =>
    have hlt : node.column < child.column :=
      (hr.all h).lt_column_of_child (Node.mem_children.mpr ⟨partition, hp, branch, hb, hc⟩)
    rw [List.map_append, List.map_singleton]
    refine List.pairwise_append.mpr ⟨ih, List.pairwise_singleton _ _, fun c hmem other ho => ?_⟩
    obtain rfl := List.mem_singleton.mp ho
    obtain hmem | hmem := List.mem_append.mp hmem
    · exact Nat.lt_trans ((List.pairwise_append.mp ih).2.2 c hmem _ List.mem_cons_self) hlt
    · exact List.mem_singleton.mp hmem ▸ hlt

/-- Columns increase along every path, and what stands side by side has no column in common. -/
theorem compile_disjoint (h : compile p d = .ok m) :
    m.depth ≤ p.maxDepth ∧
    m.roots.Pairwise (fun a b => a.column < b.column ∧ a.columns.Disjoint b.columns) ∧
    ∀ path node, m.Reaches path node →
      (path.map (·.1) ++ [node.column]).Pairwise (· < ·) ∧
      node.partitions.Pairwise (fun a b => a.columns.Disjoint b.columns) ∧
      ∀ partition ∈ node.partitions, ∀ branch ∈ partition.branches,
        branch.nodes.Pairwise fun a b => a.column < b.column ∧ a.columns.Disjoint b.columns := by
  have hs := compile_shaped h
  refine ⟨PopulationModel.depth_le hs.depth_le, hs.ordered, fun path node hr => ?_⟩
  have hall := hr.all hs.shaped
  exact ⟨pairwise_columns hs.shaped hr, hall.here.apart,
    fun partition hp => (hall.here.partitions partition hp).ordered⟩

/-- A column that parts two others. -/
def apart : Dataset where
  columns := [⟨"group", [0, 1]⟩, ⟨"score", Partition.farApart⟩, ⟨"age", Partition.farApart⟩]
  rows := 2
  columns_ne_nil := List.cons_ne_nil _ _
  length_values := by decide +kernel
  names_nodup := by decide

/-- A root with the column 0 and one partition, both branches of which list the columns 1 and 2. -/
structure IsFork (root : Node) : Prop where
  column : root.column = 0
  partitions : root.partitions.map (fun partition => partition.branches.map fun branch =>
    branch.nodes.map Node.column) = [[[1, 2], [1, 2]]]

theorem exists_compile_apart : ∃ m root, compile Partition.oneCut apart = .ok m ∧
    m.roots = [root] ∧ IsFork root := by
  have htree : (compile Partition.oneCut apart).toOption.map (fun m => m.roots.map fun root =>
      (root.column, root.partitions.map fun partition => partition.branches.map fun branch =>
        branch.nodes.map Node.column)) = some [(0, [[[1, 2], [1, 2]]])] := by decide +kernel
  obtain ⟨m, hm, hroots⟩ := Option.map_eq_some_iff.mp htree
  obtain ⟨root, rest, hcons, hroot, hrest⟩ := List.map_eq_cons_iff.mp hroots
  obtain rfl := List.map_eq_nil_iff.mp hrest
  cases hcompile : compile Partition.oneCut apart with
  | error e => simp [hcompile, Except.toOption] at hm
  | ok found =>
    rw [hcompile] at hm
    cases hm
    exact ⟨m, root, rfl, hcons, congrArg Prod.fst hroot, congrArg Prod.snd hroot⟩

theorem compile_disjoint_apart : ∃ m root, compile Partition.oneCut apart = .ok m ∧
    m.roots = [root] ∧ IsFork root ∧
    m.depth ≤ 2 ∧
    m.roots.Pairwise (fun a b => a.column < b.column ∧ a.columns.Disjoint b.columns) ∧
    ∀ path node, m.Reaches path node →
      (path.map (·.1) ++ [node.column]).Pairwise (· < ·) ∧
      node.partitions.Pairwise (fun a b => a.columns.Disjoint b.columns) ∧
      ∀ partition ∈ node.partitions, ∀ branch ∈ partition.branches,
        branch.nodes.Pairwise fun a b => a.column < b.column ∧ a.columns.Disjoint b.columns := by
  obtain ⟨m, root, h, hroots, hfork⟩ := exists_compile_apart
  exact ⟨m, root, h, hroots, hfork, compile_disjoint h⟩

end

end Population

end FairProgram
