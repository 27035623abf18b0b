import FairProgram.Proofs.Population.Shape

/-!
# Columns that every walk visits

A walk visits all roots and, of every partition it meets, the nodes of one branch. It visits every
column where sibling branches model the same columns (`Node.Symmetric`). Agreement makes the branches
that it compares so, but it may spoil what is nested in them: a column that is dropped takes along
what hangs below it, in one nested branch and not in its sibling. Nodes of depth two are too shallow
for that (`Node.All.restrict_aligned`).
-/

namespace FairProgram

-- ---------------------------------------------------------------------------
-- Aligned branches
-- ---------------------------------------------------------------------------

/-- Nodes of one column with the same columns below. -/
def Node.Alike (a b : Node) : Prop :=
  a.column = b.column ∧ ∀ c, c ∈ a.columns ↔ c ∈ b.columns

/-- The branches of each partition hold, place by place, nodes that are alike. -/
def Node.Aligned (node : Node) : Prop :=
  ∀ partition ∈ node.partitions, ∀ a ∈ partition.branches, ∀ b ∈ partition.branches,
    List.Forall₂ Node.Alike a.nodes b.nodes

/-- The branches of each partition model the same columns. -/
def Node.Symmetric (node : Node) : Prop :=
  ∀ partition ∈ node.partitions, ∀ a ∈ partition.branches, ∀ b ∈ partition.branches,
    ∀ c, c ∈ a.columns ↔ c ∈ b.columns

namespace Node

variable {keep : Nat → Bool} {node child : Node} {c : Nat}

theorem exists_of_forall₂ {R : Node → Node → Prop} {nodes others : List Node}
    (h : List.Forall₂ R nodes others) (hc : child ∈ nodes) : ∃ other ∈ others, R child other := by
  obtain ⟨i, hi, rfl⟩ := List.mem_iff_getElem.mp hc
  exact ⟨_, List.getElem_mem (h.length_eq ▸ hi), h.get hi (h.length_eq ▸ hi)⟩

theorem Aligned.symmetric (h : node.Aligned) : node.Symmetric := by
  have hsub : ∀ partition ∈ node.partitions, ∀ a ∈ partition.branches, ∀ b ∈ partition.branches,
      ∀ c, c ∈ a.columns → c ∈ b.columns := by
    intro partition hp a ha b hb c hc
    obtain ⟨child, hchild, hc⟩ := Branch.mem_columns.mp hc
    obtain ⟨other, ho, halike⟩ := exists_of_forall₂ (h partition hp a ha b hb) hchild
    exact Branch.mem_columns.mpr ⟨other, ho, (halike.2 c).mp hc⟩
  exact fun partition hp a ha b hb c => ⟨hsub partition hp a ha b hb c, hsub partition hp b hb a ha c⟩

theorem children_eq_nil_of_depth (h : node.depth ≤ 0) : ∀ child, child ∉ node.children :=
  fun child hc => Nat.not_lt_zero _ (depth_le.mp h child hc)

/-- Restriction of a node above leaves drops the columns that are not kept and no others. -/
theorem mem_columns_restrict (hd : node.depth ≤ 1) (ha : node.Aligned) :
    c ∈ (node.restrict keep).columns ↔
      c = node.column ∨ keep c = true ∧ c ∈ node.columns := by
  have hleaf : ∀ child ∈ node.children, ∀ c, c ∈ child.columns ↔ c = child.column := by
    intro child hc c
    have hnone := children_eq_nil_of_depth (Nat.le_of_lt_succ (depth_le.mp hd child hc))
    rw [mem_columns]
    exact ⟨fun h => h.resolve_right fun ⟨below, hb, _⟩ => hnone below hb, .inl⟩
  constructor
  · intro hc
    obtain hc' | ⟨child, hchild, hc'⟩ := mem_columns.mp hc
    · exact .inl (hc'.trans (column_restrict node))
    · obtain ⟨original, ho, hk, rfl⟩ := exists_of_mem_children_restrict hchild
      obtain rfl := (hleaf original ho c).mp (original.columns_restrict_subset hc')
      exact .inr ⟨hk, node.columns_restrict_subset hc⟩
  · rintro (rfl | ⟨hk, hc⟩)
    · exact node.column_mem_columns_restrict
    obtain rfl | ⟨child, hchild, hc⟩ := mem_columns.mp hc
    · exact node.column_mem_columns_restrict
    obtain rfl := (hleaf child hchild c).mp hc
    obtain ⟨partition, hp, branch, hb, hmem⟩ := mem_children.mp hchild
    -- The branches beside this one hold the column too, so that the partition stays.
    have hfilled : (partition.restrict keep).filled = true := by
      refine Partitioning.filled_iff.mpr fun other ho => ?_
      obtain ⟨source, hs, rfl⟩ := List.mem_map.mp ho
      obtain ⟨twin, ht, hcolumn, -⟩ := exists_of_forall₂ (ha partition hp branch hb source hs) hmem
      exact List.ne_nil_of_mem (mem_restrictNodes.mpr ⟨twin, ht, hcolumn ▸ hk, rfl⟩)
    refine mem_columns.mpr (.inr ⟨child.restrict keep, mem_children.mpr ⟨partition.restrict keep,
      mem_partitions_restrict.mpr ⟨partition, hp, rfl, hfilled⟩, branch.restrict keep,
      List.mem_map_of_mem hb, mem_restrictNodes.mpr ⟨child, hmem, hk, rfl⟩⟩, ?_⟩)
    exact child.column_mem_columns_restrict

theorem Alike.restrict {a b : Node} (h : a.Alike b) (ha : a.depth ≤ 1 ∧ a.Aligned)
    (hb : b.depth ≤ 1 ∧ b.Aligned) : (a.restrict keep).Alike (b.restrict keep) := by
  refine ⟨?_, fun c => ?_⟩
  · rw [column_restrict, column_restrict, h.1]
  · rw [mem_columns_restrict ha.1 ha.2, mem_columns_restrict hb.1 hb.2, h.1, h.2]

theorem forall₂_restrictNodes {nodes others : List Node} (h : List.Forall₂ Alike nodes others)
    (hr : ∀ a ∈ nodes, ∀ b ∈ others, a.Alike b → (a.restrict keep).Alike (b.restrict keep)) :
    List.Forall₂ Alike (restrictNodes keep nodes) (restrictNodes keep others) := by
  induction h with
  | nil => exact .nil
  | @cons a b nodes others hab _ ih =>
    have hrest := ih fun a ha b hb => hr a (List.mem_cons_of_mem _ ha) b (List.mem_cons_of_mem _ hb)
    rw [restrictNodes, restrictNodes, hab.1]
    split
    · exact .cons (hr a List.mem_cons_self b List.mem_cons_self hab) hrest
    · exact hrest

theorem Aligned.restrict (hd : node.depth ≤ 2) (h : node.All Aligned) :
    (node.restrict keep).Aligned := by
  have hchild {child : Node} (hc : child ∈ node.children) : child.depth ≤ 1 ∧ child.Aligned :=
    ⟨Nat.le_of_lt_succ (depth_le.mp hd child hc), (h.of_child hc).here⟩
  intro partition hp a ha b hb
  obtain ⟨original, ho, rfl, -⟩ := mem_partitions_restrict.mp hp
  obtain ⟨first, hf, rfl⟩ := List.mem_map.mp ha
  obtain ⟨second, hs, rfl⟩ := List.mem_map.mp hb
  refine forall₂_restrictNodes (h.here original ho first hf second hs) fun x hx y hy hxy => ?_
  exact hxy.restrict (hchild (mem_children.mpr ⟨original, ho, first, hf, hx⟩))
    (hchild (mem_children.mpr ⟨original, ho, second, hs, hy⟩))

theorem All.restrict_aligned (node : Node) (hd : node.depth ≤ 2) (h : node.All Aligned) :
    (node.restrict keep).All Aligned := by
  induction node using induction with
  | step node ih =>
    refine .mk (Aligned.restrict hd h) fun child hc => ?_
    obtain ⟨original, ho, -, rfl⟩ := exists_of_mem_children_restrict hc
    exact ih original ho (Nat.le_of_lt (depth_le.mp hd original ho)) (h.of_child ho)

theorem Aligned.addBranches {thresholds : List Float} {added : List (Branch Node)}
    (h : node.Aligned) (hcover : ∀ q ∈ node.partitions, q.Covers)
    (hcovers : Partitioning.Covers ⟨thresholds, added⟩)
    (hadded : ∀ a ∈ added, ∀ b ∈ added, List.Forall₂ Alike a.nodes b.nodes) :
    (node.addBranches thresholds added).Aligned := by
  refine forall_partitions_addBranches h hadded fun first hfirst hsame a ha b hb => ?_
  have halike := ranges_alike (hcover first hfirst) hcovers hsame
  obtain ⟨old, ho, new, hn, -, rfl⟩ := exists_of_mem_mergeBranches halike ha
  obtain ⟨other, ho', newer, hn', -, rfl⟩ := exists_of_mem_mergeBranches halike hb
  exact List.rel_append (h first hfirst old ho other ho') (hadded new hn newer hn')

end Node

-- ---------------------------------------------------------------------------
-- Growth
-- ---------------------------------------------------------------------------

theorem Node.All.depth_lt {d : Dataset} {node : Node} (h : node.All (Node.Shaped d)) :
    node.depth + node.column < d.width := by
  induction node using Node.induction with
  | step node ih =>
    have hlt := h.here.column_lt
    have hdepth : node.depth ≤ d.width - 1 - node.column := by
      refine Node.depth_le.mpr fun child hc => ?_
      have hchild := ih child hc (h.of_child hc)
      have hcolumn := h.lt_column_of_child hc
      omega
    omega

namespace Population

section
variable {p : Params} {d : Dataset} {rows : List Nat} {first : Growth}

theorem grow_aligned (hd : d.Finite) (levels : Nat) (hs : Start p d rows first)
    (hshallow : levels ≤ 3 ∨ d.width ≤ first.node.column + 4) :
    (grow p d levels rows first).node.All Node.Aligned := by
  refine (grow_induction (I := fun levels rows first next growth =>
    ShapedGrowth d levels first next growth ∧
      (levels ≤ 3 ∨ d.width ≤ first.node.column + 4 → growth.node.All Node.Aligned))
    hd ?_ ?_ ?_ levels hs).2 hshallow
  · intro levels rows first hs
    exact ⟨hs.shaped levels, fun _ => .mk (by simp [Node.Aligned, hs.leaf]) (by simp [hs.children])⟩
  · rintro levels rows first next growth - ⟨h, hm⟩
    exact ⟨h.skip, hm⟩
  · rintro levels rows first next growth refinement subject ha ⟨h, haligned⟩ hb
    refine ⟨h.attach hd ha fun bucket hbucket => (hb bucket hbucket).1, fun hshallow => ?_⟩
    have hlater := ha.later
    have hfirst := ha.column_eq
    have hnode : ∀ bucket ∈ refinement.buckets,
        (grow p d levels (d.filterRows growth.node.column rows bucket.range.contains)
          (sprout growth (subject, next) bucket)).node.depth ≤ 2 := by
      intro bucket hbucket
      have hshaped := (hb bucket hbucket).1
      have hdepth := hshaped.shaped.depth_lt
      have hlevels := hshaped.depth_le
      rw [column_grow hd levels (ha.start_sprout hbucket)] at hdepth
      change _ + next < _ at hdepth
      omega
    obtain ⟨added, agreed, hagree, hattach, hcovers, -, hadded⟩ := ha.sprouts_ok hd levels
      (R := fun _ node => node.All Node.Aligned ∧ node.depth ≤ 2)
      (fun bucket hbucket => ⟨(hb bucket hbucket).2 (by
        change levels ≤ 3 ∨ d.width ≤ next + 4
        omega), hnode bucket hbucket⟩)
      (fun _ _ node h => ⟨h.1.restrict_aligned node h.2, Nat.le_trans node.depth_restrict_le h.2⟩)
    rw [hattach]
    obtain ⟨-, hmem⟩ := ha.mem_agreed hagree
      fun bucket hbucket => (hb bucket hbucket).1.shaped.toFilled
    have hcover := h.shaped.here.covers
    refine .mk ((haligned hshallow).here.addBranches hcover hcovers fun a hmem' b hmem'' => ?_)
      fun child hc => ?_
    · obtain ⟨x, hx, hxcolumn, -⟩ := hadded a hmem'
      obtain ⟨y, hy, hycolumn, -⟩ := hadded b hmem''
      have hsame (c : Nat) : c ∈ x.columns ↔ c ∈ y.columns := by
        have hxy := (hmem a hmem' c).trans (hmem b hmem'' c).symm
        simpa [Branch.mem_columns, hx, hy] using hxy
      rw [hx, hy]
      exact .cons ⟨hxcolumn.trans hycolumn.symm, hsame⟩ .nil
    · obtain hc | ⟨branch, hbranch, hc⟩ := (Node.mem_children_addBranches hcover hcovers).mp hc
      · exact (haligned hshallow).of_child hc
      · exact ((hadded branch hbranch).of_mem hc).2.1

theorem forest_aligned (hd : d.Finite) (hr : d.rows ≠ 0) (hshallow : p.maxDepth ≤ 3 ∨ d.width ≤ 4) :
    ∀ root ∈ (forest p d).roots, root.All Node.Aligned := by
  refine forest_induction (I := fun _ forest => ∀ root ∈ forest.roots, root.All Node.Aligned)
    hd hr ?_ ?_ ?_
  · exact fun root h => nomatch h
  · exact fun _ _ _ h => h
  · intro next forest first _ _ _ _ hs h
    refine List.forall_mem_append.mpr ⟨h, List.forall_mem_singleton.mpr ?_⟩
    exact grow_aligned hd p.maxDepth hs
      (hshallow.imp_right fun hw => Nat.le_trans hw (Nat.le_add_left 4 _))

end

end Population

-- ---------------------------------------------------------------------------
-- Walks
-- ---------------------------------------------------------------------------

/-- Nodes that hold, with each of them, the nodes of a branch of each of its partitions. -/
def IsClosed (W : Node → Prop) : Prop :=
  ∀ node, W node → ∀ partition ∈ node.partitions,
    ∃ branch ∈ partition.branches, ∀ child ∈ branch.nodes, W child

namespace PopulationModel

/-- The nodes visited by a walk, which chooses a branch in each partition that it meets. -/
structure IsWalk (m : PopulationModel) (W : Node → Prop) : Prop where
  roots : ∀ root ∈ m.roots, W root
  closed : IsClosed W

/-- The nodes visited for given values of the columns, by the branches whose ranges hold the value
of the column of their node. -/
inductive Follows (m : PopulationModel) (value : Nat → Float) : Node → Prop
  | root {node : Node} : node ∈ m.roots → Follows m value node
  | branch {node child : Node} {partition : Partitioning Node} {branch : Branch Node} :
      Follows m value node → partition ∈ node.partitions → branch ∈ partition.branches →
      branch.range.contains (value node.column) = true → child ∈ branch.nodes →
      Follows m value child

variable {m : PopulationModel} {value : Nat → Float} {W : Node → Prop} {node : Node} {c : Nat}

theorem Follows.all {P : Node → Prop} (h : ∀ root ∈ m.roots, root.All P)
    (hf : m.Follows value node) : node.All P := by
  induction hf with
  | root hroot => exact h _ hroot
  | branch _ hp hb _ hc ih => exact ih.of_child (Node.mem_children.mpr ⟨_, hp, _, hb, hc⟩)

theorem isWalk_follows {d : Dataset} (h : ∀ root ∈ m.roots, root.All (Node.Shaped d))
    (hv : ∀ c < d.width, (value c).isFinite = true) : m.IsWalk (m.Follows value) := by
  refine ⟨fun root hroot => .root hroot, fun node hf partition hp => ?_⟩
  have hshaped := (hf.all h).here
  have hfinite := hv node.column hshaped.column_lt
  obtain ⟨range, hrange, hin⟩ := (hshaped.partitions partition hp).chain.exists_contains
    (Double.negInfinity_lt hfinite) (Double.le_of_lt (Double.lt_infinity hfinite))
  obtain ⟨branch, hb, rfl⟩ := List.mem_map.mp hrange
  exact ⟨branch, hb, fun child hc => .branch hf hp hb hin hc⟩

end PopulationModel

namespace Node

variable {d : Dataset} {W : Node → Prop} {node child : Node} {c : Nat}

/-- Where sibling branches model the same columns, none of them can be walked past. -/
theorem All.exists_visited (hw : IsClosed W) (h : node.All Symmetric) (hn : W node)
    (hc : c ∈ node.columns) : ∃ visited, W visited ∧ visited.column = c := by
  induction node using induction with
  | step node ih =>
    obtain rfl | ⟨child, hchild, hc⟩ := mem_columns.mp hc
    · exact ⟨node, hn, rfl⟩
    obtain ⟨partition, hp, branch, hb, hmem⟩ := mem_children.mp hchild
    obtain ⟨chosen, hchosen, hall⟩ := hw node hn partition hp
    have hsame := h.here partition hp branch hb chosen hchosen c
    obtain ⟨other, ho, hc⟩ := Branch.mem_columns.mp
      (hsame.mp (Branch.mem_columns.mpr ⟨child, hmem, hc⟩))
    have hother := mem_children.mpr ⟨partition, hp, chosen, hchosen, ho⟩
    exact ih other hother (h.of_child hother) (hall other ho) hc

/-- A walk from a node need not visit a column. -/
def Avoids (c : Nat) (node : Node) : Prop :=
  ∃ W, IsClosed W ∧ W node ∧ ∀ visited, W visited → visited.column ≠ c

theorem isClosed_avoids (c : Nat) : IsClosed (Avoids c) := by
  rintro node ⟨W, hw, hn, hne⟩ partition hp
  obtain ⟨branch, hb, hall⟩ := hw node hn partition hp
  exact ⟨branch, hb, fun child hc => ⟨W, hw, hall child hc, hne⟩⟩

theorem Avoids.column_ne (h : Avoids c node) : node.column ≠ c := by
  obtain ⟨W, -, hn, hne⟩ := h
  exact hne node hn

theorem Avoids.mk (hcolumn : node.column ≠ c)
    (h : ∀ partition ∈ node.partitions, ∃ branch ∈ partition.branches,
      ∀ child ∈ branch.nodes, Avoids c child) : Avoids c node := by
  refine ⟨fun visited => visited = node ∨ Avoids c visited, ?_, .inl rfl, ?_⟩
  · rintro visited (rfl | hv) partition hp
    · obtain ⟨branch, hb, hall⟩ := h partition hp
      exact ⟨branch, hb, fun child hc => .inr (hall child hc)⟩
    · obtain ⟨branch, hb, hall⟩ := isClosed_avoids c visited hv partition hp
      exact ⟨branch, hb, fun child hc => .inr (hall child hc)⟩
  · rintro visited (rfl | hv)
    · exact hcolumn
    · exact hv.column_ne

theorem All.avoids (h : node.All (Shaped d)) (hc : c ∉ node.columns) : Avoids c node := by
  induction node using induction with
  | step node ih =>
    refine .mk (fun heq => hc (heq ▸ node.column_mem_columns)) fun partition hp => ?_
    obtain ⟨branch, hb⟩ := List.exists_mem_of_length_pos
      (Nat.zero_lt_of_lt (h.here.partitions partition hp).several)
    refine ⟨branch, hb, fun child hchild => ?_⟩
    have hmem := mem_children.mpr ⟨partition, hp, branch, hb, hchild⟩
    exact ih child hmem (h.of_child hmem) fun hc' => hc (mem_columns.mpr (.inr ⟨child, hmem, hc'⟩))

theorem disjoint_of_ne {α : Type} {columns : α → List Nat} {l : List α} {a b : α}
    (h : l.Pairwise fun a b => (columns a).Disjoint (columns b)) (ha : a ∈ l) (hb : b ∈ l)
    (hne : a ≠ b) : (columns a).Disjoint (columns b) := by
  have : Std.Symm fun a b => (columns a).Disjoint (columns b) := ⟨fun _ _ => List.disjoint_symm⟩
  exact h.forall ha hb hne

/-- A column below a node is in one partition only, so that one branch decides whether a walk must
visit it. -/
theorem All.avoids_of_branch (h : node.All (Shaped d)) {partition : Partitioning Node}
    (hp : partition ∈ node.partitions) (hc : c ∈ partition.columns) {branch : Branch Node}
    (hb : branch ∈ partition.branches) (hall : ∀ child ∈ branch.nodes, Avoids c child) :
    Avoids c node := by
  have hbelow : ∃ child ∈ node.children, c ∈ child.columns := by
    obtain ⟨side, hs, child, hchild, hc⟩ := Partitioning.mem_columns.mp hc
    exact ⟨child, mem_children.mpr ⟨partition, hp, side, hs, hchild⟩, hc⟩
  refine .mk ?_ fun other ho => ?_
  · obtain ⟨child, hchild, hc⟩ := hbelow
    exact Nat.ne_of_lt (Nat.lt_of_lt_of_le (h.lt_column_of_child hchild)
      ((h.of_child hchild).column_le hc))
  · by_cases heq : other = partition
    · exact heq ▸ ⟨branch, hb, hall⟩
    · have hdisjoint : other.columns.Disjoint partition.columns :=
        disjoint_of_ne h.here.apart ho hp heq
      obtain ⟨side, hs⟩ := List.exists_mem_of_length_pos
        (Nat.zero_lt_of_lt (h.here.partitions other ho).several)
      refine ⟨side, hs, fun child hchild => ?_⟩
      refine (h.of_child (mem_children.mpr ⟨other, ho, side, hs, hchild⟩)).avoids fun hc' => ?_
      exact hdisjoint (Partitioning.mem_columns.mpr ⟨side, hs, child, hchild, hc'⟩) hc

/-- Where sibling branches do not model the same columns, a walk can pass a column by. -/
theorem All.exists_avoids (h : node.All (Shaped d)) (hasym : ¬ node.All Symmetric) :
    ∃ c ∈ node.columns, Avoids c node := by
  induction node using induction with
  | step node ih =>
    by_cases hnode : node.Symmetric
    · obtain ⟨child, hchild, hasym⟩ : ∃ child ∈ node.children, ¬ child.All Symmetric := by
        by_contra hno
        exact hasym (.mk hnode fun child hc => by_contra fun h => hno ⟨child, hc, h⟩)
      obtain ⟨c, hc, havoids⟩ := ih child hchild (h.of_child hchild) hasym
      obtain ⟨partition, hp, branch, hb, hmem⟩ := mem_children.mp hchild
      refine ⟨c, mem_columns.mpr (.inr ⟨child, hchild, hc⟩), h.avoids_of_branch hp
        (Partitioning.mem_columns.mpr ⟨branch, hb, child, hmem, hc⟩) hb fun other ho => ?_⟩
      by_cases heq : other = child
      · exact heq ▸ havoids
      · have hother := h.of_child (mem_children.mpr ⟨partition, hp, branch, hb, ho⟩)
        refine hother.avoids fun hc' => ?_
        have hapart := ((h.here.partitions partition hp).ordered branch hb).imp And.right
        exact disjoint_of_ne hapart ho hmem heq hc' hc
    · obtain ⟨partition, hp, a, ha, b, hb, c, hc, hnc⟩ : ∃ partition ∈ node.partitions,
          ∃ a ∈ partition.branches, ∃ b ∈ partition.branches, ∃ c ∈ a.columns, c ∉ b.columns := by
        by_contra hno
        refine hnode fun partition hp a ha b hb c => ⟨fun hc => ?_, fun hc => ?_⟩
        · exact by_contra fun h => hno ⟨partition, hp, a, ha, b, hb, c, hc, h⟩
        · exact by_contra fun h => hno ⟨partition, hp, b, hb, a, ha, c, hc, h⟩
      obtain ⟨child, hchild, hmem⟩ := Branch.mem_columns.mp hc
      have hbelow := Partitioning.mem_columns.mpr ⟨a, ha, child, hchild, hmem⟩
      refine ⟨c, mem_columns.mpr (.inr ⟨child, mem_children.mpr ⟨partition, hp, a, ha, hchild⟩, hmem⟩),
        h.avoids_of_branch hp hbelow hb fun other ho => ?_⟩
      refine (h.of_child (mem_children.mpr ⟨partition, hp, b, hb, ho⟩)).avoids fun hc' => ?_
      exact hnc (Branch.mem_columns.mpr ⟨other, ho, hc'⟩)

end Node

-- ---------------------------------------------------------------------------
-- Compiled models
-- ---------------------------------------------------------------------------

namespace Population

section
variable {p : Params} {d : Dataset} {m : PopulationModel}

theorem symmetric_iff_walks (h : compile p d = .ok m) :
    (∀ root ∈ m.roots, root.All Node.Symmetric) ↔
      ∀ W, m.IsWalk W → ∀ c < d.width, ∃ visited, W visited ∧ visited.column = c := by
  have hs := compile_shaped h
  constructor
  · intro hsym W hw c hc
    obtain ⟨root, hroot, hc⟩ := (hs.modelled c).mp (hs.complete c hc)
    exact (hsym root hroot).exists_visited hw.closed (hw.roots root hroot) hc
  · intro hwalks root hroot
    by_contra hasym
    obtain ⟨c, hc, havoids⟩ := (hs.shaped root hroot).exists_avoids hasym
    have hwalk : m.IsWalk (Node.Avoids c) := by
      refine ⟨fun other ho => ?_, Node.isClosed_avoids c⟩
      by_cases heq : other = root
      · exact heq ▸ havoids
      · have hapart := hs.ordered.imp And.right
        exact (hs.shaped other ho).avoids fun hc' =>
          Node.disjoint_of_ne hapart ho hroot heq hc' hc
    obtain ⟨visited, hv, hcolumn⟩ := hwalks _ hwalk c ((hs.shaped root hroot).lt_width hc)
    exact hv.column_ne hcolumn

/-- Every walk visits every column exactly where sibling branches model the same columns. That is so
of a model of at most three levels or four columns, whatever the values of the columns. -/
theorem compile_covers (h : compile p d = .ok m) :
    ((∀ W, m.IsWalk W → ∀ c < d.width, ∃ visited, W visited ∧ visited.column = c) ↔
      ∀ path node, m.Reaches path node → node.Symmetric) ∧
    (p.maxDepth ≤ 3 ∨ d.width ≤ 4 →
      (∀ W, m.IsWalk W → ∀ c < d.width, ∃ visited, W visited ∧ visited.column = c) ∧
      (∀ value : Nat → Float, (∀ c < d.width, (value c).isFinite = true) →
        ∀ c < d.width, ∃ visited, m.Follows value visited ∧ visited.column = c) ∧
      ∀ path node, m.Reaches path node → node.Symmetric) := by
  have hiff := symmetric_iff_walks h
  refine ⟨hiff.symm.trans PopulationModel.all_iff_reaches, fun hshallow => ?_⟩
  have hsym : ∀ root ∈ m.roots, root.All Node.Symmetric := by
    obtain ⟨-, hr, hd, rfl⟩ := compile_eq_ok_iff.mp h
    exact fun root hroot =>
      (forest_aligned hd hr hshallow root hroot).imp fun _ ha => ha.symmetric
  refine ⟨hiff.mp hsym, fun value hv => ?_, PopulationModel.all_iff_reaches.mp hsym⟩
  exact hiff.mp hsym _ (PopulationModel.isWalk_follows (compile_shaped h).shaped hv)

theorem compile_covers_apart : ∃ m root, compile Partition.oneCut apart = .ok m ∧
    m.roots = [root] ∧ IsFork root ∧
    (∀ W, m.IsWalk W → ∀ c < 3, ∃ visited, W visited ∧ visited.column = c) ∧
    (∀ value : Nat → Float, (∀ c < 3, (value c).isFinite = true) →
      ∀ c < 3, ∃ visited, m.Follows value visited ∧ visited.column = c) ∧
    ∀ path node, m.Reaches path node → node.Symmetric := by
  obtain ⟨m, root, h, hroots, hfork⟩ := exists_compile_apart
  exact ⟨m, root, h, hroots, hfork, (compile_covers h).2 (.inl (by decide))⟩

end

-- ---------------------------------------------------------------------------
-- Four levels
-- ---------------------------------------------------------------------------

/-- A partition at zero. -/
def halves (low high : List Node) : Partitioning Node :=
  ⟨[0], [⟨⟨-1 / 0, 0⟩, low⟩, ⟨⟨0, 1 / 0⟩, high⟩]⟩

def plain (column : Nat) (name : String) (partitions : List (Partitioning Node)) : Node :=
  .mk column name (.gaussian 0 1) partitions

def outcomes : Partitioning Node :=
  halves [plain 4 "outcome" []] [plain 4 "outcome" []]

/-- Ages that model a rate and an outcome, the outcome below the rate or beside it. -/
def uneven : Node :=
  let above := [plain 3 "rate" [outcomes]]
  let beside := [plain 3 "rate" [], plain 4 "outcome" []]
  plain 1 "score" [halves [plain 2 "age" [halves above above]]
    [plain 2 "age" [halves beside beside]]]

/-- Ages that model no rate. -/
def even : Node :=
  plain 1 "score" [halves [plain 2 "age" [outcomes]] [plain 2 "age" [outcomes]]]

/-- Dropping the rates takes the outcomes below them along. -/
theorem agree_uneven : (agree 5 (halves [uneven] [even]).branches).1 =
    (halves [plain 1 "score" [halves [plain 2 "age" []] [plain 2 "age" [outcomes]]]]
      [even]).branches := by
  rw [agree, if_neg (by decide), agree, if_pos (by decide)]
  rfl

/-- A model of four levels, which lost the outcomes of low scores in the low group. -/
def lopsided : PopulationModel where
  names := ["group", "score", "age", "rate", "outcome"]
  roots :=
    let rates := halves [plain 3 "rate" []] [plain 3 "rate" []]
    [((plain 0 "group" []).addBranches [0] (agree 5 (halves [uneven] [even]).branches).1).addBranches
      [0] rates.branches]

theorem exists_walk_past_outcome : (∀ c < 5, ∃ root ∈ lopsided.roots, c ∈ root.columns) ∧
    ∃ W, lopsided.IsWalk W ∧ ∀ visited, W visited → visited.column ≠ 4 := by
  have hroots : lopsided.roots = [plain 0 "group" [halves
      [plain 1 "score" [halves [plain 2 "age" []] [plain 2 "age" [outcomes]]], plain 3 "rate" []]
      [even, plain 3 "rate" []]]] := by
    rw [lopsided, agree_uneven]
    rfl
  have hleaf (column : Nat) (name : String) (h : column ≠ 4) : (plain column name []).Avoids 4 :=
    .mk h fun _ hp => nomatch hp
  have hscore : (plain 1 "score" [halves [plain 2 "age" []] [plain 2 "age" [outcomes]]]).Avoids 4 := by
    refine .mk (by decide) fun partition hp => ?_
    obtain rfl := List.mem_singleton.mp hp
    refine ⟨_, List.mem_cons_self, fun child hc => ?_⟩
    exact List.mem_singleton.mp hc ▸ hleaf 2 "age" (by decide)
  refine ⟨?_, Node.Avoids 4, ⟨fun root hroot => ?_, Node.isClosed_avoids 4⟩, fun _ h => h.column_ne⟩
  · rw [hroots]
    decide
  · rw [hroots] at hroot
    obtain rfl := List.mem_singleton.mp hroot
    refine .mk (by decide) fun partition hp => ?_
    obtain rfl := List.mem_singleton.mp hp
    refine ⟨_, List.mem_cons_self, fun child hc => ?_⟩
    obtain rfl | hc := List.mem_cons.mp hc
    · exact hscore
    · exact List.mem_singleton.mp hc ▸ hleaf 3 "rate" (by decide)

end Population

end FairProgram
