import FairProgram.Proofs.Population.Shape

/-!
# Fits along paths

The rows that reach a node are those whose values lie in the ranges of the branches that lead to it.
A node has the fit of its column over these rows, and its partitions have the thresholds at which
refinement cuts them (`compile_fits`). Partitions that were merged do not disturb this: equal
thresholds divide the rows equally.
-/

namespace FairProgram

-- ---------------------------------------------------------------------------
-- Rows of a path
-- ---------------------------------------------------------------------------

/-- The rows whose values lie in the range of every branch of a path, in increasing order. -/
def Dataset.rowsWithin (d : Dataset) (path : List (Nat × Range)) : List Nat :=
  d.allRows.filter fun row => path.all fun (column, range) =>
    (d.cell? column row).any range.contains

section
variable {p : Params} {d : Dataset} {rows : List Nat} {thresholds : List Float}

@[simp] theorem Dataset.rowsWithin_nil (d : Dataset) : d.rowsWithin [] = d.allRows :=
  List.filter_true d.allRows

theorem Dataset.rowsWithin_append (d : Dataset) (path : List (Nat × Range)) (column : Nat)
    (range : Range) : d.rowsWithin (path ++ [(column, range)]) =
      d.filterRows column (d.rowsWithin path) range.contains := by
  rw [filterRows_eq, rowsWithin, rowsWithin, List.filter_filter]
  refine List.filter_congr fun row _ => ?_
  rw [List.all_append, List.all_cons, List.all_nil, Bool.and_true, Bool.and_comm]

theorem Dataset.filterRows_congr {column : Nat} {range other : Range}
    (h : ∀ v, range.contains v = other.contains v) :
    d.filterRows column rows range.contains = d.filterRows column rows other.contains := by
  rw [funext h]

-- ---------------------------------------------------------------------------
-- Measured nodes
-- ---------------------------------------------------------------------------

/-- Thresholds at which refinement cuts a column over rows. Zero has two signs, so that equal
thresholds need not be the same doubles. -/
def CutsAt (p : Params) (d : Dataset) (rows : List Nat) (column subject : Nat)
    (thresholds : List Float) : Prop :=
  ∃ r, Partition.refine p (d.gather subject rows) (d.gather column rows) = .ok (some r) ∧
    (thresholds == r.thresholds) = true

/-- A node that rows reach, with the fit of its column over them, and the same of all nodes below. -/
inductive Node.Measured (p : Params) (d : Dataset) : List Nat → Node → Prop
  | mk {rows : List Nat} {node : Node} :
      Fit.ofValues (d.gather node.column rows) p = .ok node.fit →
      (∀ partition ∈ node.partitions, ∀ branch ∈ partition.branches,
        p.Supports (d.filterRows node.column rows branch.range.contains).length rows.length) →
      (∀ partition ∈ node.partitions, ∀ branch ∈ partition.branches, ∀ child ∈ branch.nodes,
        CutsAt p d rows node.column child.column partition.thresholds) →
      (∀ partition ∈ node.partitions, ∀ branch ∈ partition.branches, ∀ child ∈ branch.nodes,
        Node.Measured p d (d.filterRows node.column rows branch.range.contains) child) →
      Node.Measured p d rows node

theorem Node.Measured.restrict {keep : Nat → Bool} {node : Node} (h : node.Measured p d rows) :
    (node.restrict keep).Measured p d rows := by
  induction h with
  | @mk rows node hfit hsupp hcuts _ ih =>
    have horigin : ∀ partition ∈ (node.restrict keep).partitions, ∀ branch ∈ partition.branches,
        ∃ original ∈ node.partitions, original.thresholds = partition.thresholds ∧
          ∃ source ∈ original.branches, source.range = branch.range ∧
            ∀ child ∈ branch.nodes, ∃ kept ∈ source.nodes, kept.restrict keep = child := by
      intro partition hp branch hb
      obtain ⟨original, ho, rfl, -⟩ := mem_partitions_restrict.mp hp
      obtain ⟨source, hs, rfl⟩ := List.mem_map.mp hb
      refine ⟨original, ho, rfl, source, hs, rfl, fun child hc => ?_⟩
      obtain ⟨kept, hk, -, rfl⟩ := mem_restrictNodes.mp hc
      exact ⟨kept, hk, rfl⟩
    refine .mk ?_ ?_ ?_ ?_
    · rw [column_restrict, fit_restrict]
      exact hfit
    · intro partition hp branch hb
      obtain ⟨original, ho, -, source, hs, hrange, -⟩ := horigin partition hp branch hb
      rw [column_restrict, ← hrange]
      exact hsupp original ho source hs
    · intro partition hp branch hb child hc
      obtain ⟨original, ho, hth, source, hs, -, hnodes⟩ := horigin partition hp branch hb
      obtain ⟨kept, hk, rfl⟩ := hnodes child hc
      rw [column_restrict, column_restrict, ← hth]
      exact hcuts original ho source hs kept hk
    · intro partition hp branch hb child hc
      obtain ⟨original, ho, -, source, hs, hrange, hnodes⟩ := horigin partition hp branch hb
      obtain ⟨kept, hk, rfl⟩ := hnodes child hc
      rw [column_restrict, ← hrange]
      exact ih original ho source hs kept hk

-- ---------------------------------------------------------------------------
-- Added branches
-- ---------------------------------------------------------------------------

/-- A branch of a partition with these thresholds, at a node of a column that rows reach. -/
structure Branch.Measured (p : Params) (d : Dataset) (rows : List Nat) (column : Nat)
    (thresholds : List Float) (branch : Branch Node) : Prop where
  supported : p.Supports (d.filterRows column rows branch.range.contains).length rows.length
  cuts : ∀ child ∈ branch.nodes, CutsAt p d rows column child.column thresholds
  below : ∀ child ∈ branch.nodes,
    child.Measured p d (d.filterRows column rows branch.range.contains)

theorem Node.measured_iff {node : Node} : node.Measured p d rows ↔
    Fit.ofValues (d.gather node.column rows) p = .ok node.fit ∧
      ∀ partition ∈ node.partitions, ∀ branch ∈ partition.branches,
        branch.Measured p d rows node.column partition.thresholds := by
  constructor
  · intro h
    cases h with
    | mk hfit hsupp hcuts hbelow =>
      exact ⟨hfit, fun partition hp branch hb => ⟨hsupp partition hp branch hb,
        hcuts partition hp branch hb, hbelow partition hp branch hb⟩⟩
  · rintro ⟨hfit, h⟩
    exact .mk hfit (fun partition hp branch hb => (h partition hp branch hb).supported)
      (fun partition hp branch hb => (h partition hp branch hb).cuts)
      fun partition hp branch hb => (h partition hp branch hb).below

/-- A branch joins one whose range holds the same values. -/
theorem Branch.Measured.append {old new : Branch Node} {column : Nat} {others : List Float}
    (hold : old.Measured p d rows column thresholds)
    (halike : ∀ v, old.range.contains v = new.range.contains v)
    (hcuts : ∀ child ∈ new.nodes, CutsAt p d rows column child.column thresholds)
    (hnew : new.Measured p d rows column others) :
    Branch.Measured p d rows column thresholds ⟨old.range, old.nodes ++ new.nodes⟩ where
  supported := hold.supported
  cuts := by
    intro child hc
    obtain hc | hc := List.mem_append.mp hc
    · exact hold.cuts child hc
    · exact hcuts child hc
  below := by
    intro child hc
    obtain hc | hc := List.mem_append.mp hc
    · exact hold.below child hc
    · rw [Dataset.filterRows_congr halike]
      exact hnew.below child hc

theorem Node.Measured.addBranches {node : Node} {r : Refinement} {added : List (Branch Node)}
    (h : node.Measured p d rows) (hcover : ∀ q ∈ node.partitions, q.Covers)
    (hadded : Partitioning.Covers ⟨r.thresholds, added⟩)
    (hrefined : ∀ branch ∈ added, ∀ child ∈ branch.nodes,
      Partition.refine p (d.gather child.column rows) (d.gather node.column rows) = .ok (some r))
    (hnew : ∀ branch ∈ added, branch.Measured p d rows node.column r.thresholds) :
    (node.addBranches r.thresholds added).Measured p d rows := by
  obtain ⟨hfit, hold⟩ := measured_iff.mp h
  rw [measured_iff, column_addBranches, fit_addBranches]
  refine ⟨hfit, forall_partitions_addBranches hold hnew fun first hfirst hsame branch hb => ?_⟩
  obtain ⟨old, ho, new, hn, halike, rfl⟩ :=
    exists_of_mem_mergeBranches (ranges_alike (hcover first hfirst) hadded hsame) hb
  exact (hold first hfirst old ho).append halike
    (fun child hc => ⟨r, hrefined new hn child hc, hsame⟩) (hnew new hn)

end

-- ---------------------------------------------------------------------------
-- Compiled models
-- ---------------------------------------------------------------------------

namespace Population

section
variable {p : Params} {d : Dataset} {rows : List Nat} {first : Growth}

theorem grow_measured (hd : d.Finite) (levels : Nat) (hs : Start p d rows first) :
    (grow p d levels rows first).node.Measured p d rows := by
  refine (grow_induction (I := fun levels rows first next growth =>
    ShapedGrowth d levels first next growth ∧ growth.node.Measured p d rows) hd ?_ ?_ ?_ levels hs).2
  · intro levels rows first hs
    refine ⟨hs.shaped levels, Node.measured_iff.mpr ⟨hs.fitted, ?_⟩⟩
    simp [hs.leaf]
  · rintro levels rows first next growth - ⟨h, hm⟩
    exact ⟨h.skip, hm⟩
  · rintro levels rows first next growth refinement subject ha ⟨h, hm⟩ hb
    refine ⟨h.attach hd ha fun bucket hbucket => (hb bucket hbucket).1, ?_⟩
    obtain ⟨added, agreed, -, hattach, hcovers, -, hadded⟩ := ha.sprouts_ok hd levels
      (R := fun range node =>
        p.Supports (d.filterRows growth.node.column rows range.contains).length rows.length ∧
          node.Measured p d (d.filterRows growth.node.column rows range.contains))
      (fun bucket hbucket => ⟨ha.divides.supported bucket hbucket, (hb bucket hbucket).2⟩)
      (fun _ _ _ hr => ⟨hr.1, hr.2.restrict⟩)
    rw [hattach]
    have hrefined : ∀ branch ∈ added, ∀ child ∈ branch.nodes,
        Partition.refine p (d.gather child.column rows) (d.gather growth.node.column rows) =
          .ok (some refinement) := by
      intro branch hbranch child hc
      rw [((hadded branch hbranch).of_mem hc).1]
      exact ha.refined
    refine hm.addBranches h.shaped.here.covers hcovers hrefined ?_
    intro branch hbranch
    obtain ⟨-, -, -, hsupp, -⟩ := hadded branch hbranch
    refine ⟨hsupp, fun child hc => ?_, fun child hc => ?_⟩
    · exact ⟨refinement, hrefined branch hbranch child hc, hcovers.thresholds_beq⟩
    · exact ((hadded branch hbranch).of_mem hc).2.2

theorem forest_measured (hd : d.Finite) (hr : d.rows ≠ 0) :
    ∀ root ∈ (forest p d).roots, root.Measured p d d.allRows := by
  refine forest_induction (I := fun _ forest => ∀ root ∈ forest.roots, root.Measured p d d.allRows)
    hd hr ?_ ?_ ?_
  · exact fun root h => nomatch h
  · exact fun _ _ _ h => h
  · intro next forest first _ _ _ _ hs h
    exact List.forall_mem_append.mpr
      ⟨h, List.forall_mem_singleton.mpr (grow_measured hd p.maxDepth hs)⟩

end

end Population

section
variable {p : Params} {d : Dataset} {m : PopulationModel} {path : List (Nat × Range)} {node : Node}

theorem PopulationModel.Reaches.measured (h : ∀ root ∈ m.roots, root.Measured p d d.allRows)
    (hr : m.Reaches path node) : node.Measured p d (d.rowsWithin path) := by
  induction hr with
  | root hroot =>
    rw [Dataset.rowsWithin_nil]
    exact h _ hroot
  | branch _ hp hb hc ih =>
    rw [Dataset.rowsWithin_append]
    exact ((Node.measured_iff.mp ih).2 _ hp _ hb).below _ hc

/-- Every node has the fit of its column over the rows of its path. The ranges of its partitions meet
at their thresholds, which are those at which every column that a branch starts with is cut, and each
branch keeps its share of the rows. -/
theorem Population.compile_fits (h : compile p d = .ok m) (hr : m.Reaches path node) :
    Fit.ofValues (d.gather node.column (d.rowsWithin path)) p = .ok node.fit ∧
    ∀ partition ∈ node.partitions,
      partition.thresholds = (partition.branches.map (·.range)).dropLast.map (·.upper) ∧
      ∀ branch ∈ partition.branches,
        ¬ Float.ofNat (d.rowsWithin (path ++ [(node.column, branch.range)])).length <
          p.partitionShare * Float.ofNat (d.rowsWithin path).length ∧
        ∀ child ∈ branch.nodes, ∃ r,
          Partition.refine p (d.gather child.column (d.rowsWithin path))
            (d.gather node.column (d.rowsWithin path)) = .ok (some r) ∧
          (partition.thresholds == r.thresholds) = true := by
  have hs := hr.all (compile_shaped h).shaped
  obtain ⟨-, hrows, hd, rfl⟩ := compile_eq_ok_iff.mp h
  obtain ⟨hfit, hall⟩ := Node.measured_iff.mp (hr.measured (forest_measured hd hrows))
  refine ⟨hfit, fun partition hp => ⟨(hs.here.partitions partition hp).thresholds_eq, ?_⟩⟩
  intro branch hb
  refine ⟨?_, (hall partition hp branch hb).cuts⟩
  rw [Dataset.rowsWithin_append]
  exact (hall partition hp branch hb).supported

/-- The root of a fork and a node below its first branch. -/
theorem Population.compile_fits_apart : ∃ m root path child,
    compile Partition.oneCut apart = .ok m ∧ m.Reaches [] root ∧ IsFork root ∧
    m.Reaches path child ∧ path.map (·.1) = [0] ∧ child.column = 1 ∧
    Fit.ofValues (apart.gather child.column (apart.rowsWithin path)) Partition.oneCut =
      .ok child.fit ∧
    Fit.ofValues (apart.gather root.column (apart.rowsWithin [])) Partition.oneCut = .ok root.fit ∧
    ∀ partition ∈ root.partitions,
      partition.thresholds = (partition.branches.map (·.range)).dropLast.map (·.upper) ∧
      ∀ branch ∈ partition.branches,
        ¬ Float.ofNat (apart.rowsWithin ([] ++ [(root.column, branch.range)])).length <
          Partition.oneCut.partitionShare * Float.ofNat (apart.rowsWithin []).length ∧
        ∀ child ∈ branch.nodes, ∃ r,
          Partition.refine Partition.oneCut (apart.gather child.column (apart.rowsWithin []))
            (apart.gather root.column (apart.rowsWithin [])) = .ok (some r) ∧
          (partition.thresholds == r.thresholds) = true := by
  obtain ⟨m, root, h, hroots, hfork⟩ := exists_compile_apart
  have hr : m.Reaches [] root := .root (hroots ▸ List.mem_cons_self)
  obtain ⟨partition, others, hpartitions, hbranches, -⟩ := List.map_eq_cons_iff.mp hfork.partitions
  obtain ⟨branch, _, hfirst, hnodes, -⟩ := List.map_eq_cons_iff.mp hbranches
  obtain ⟨child, _, hchildren, hcolumn, -⟩ := List.map_eq_cons_iff.mp hnodes
  have hbelow : m.Reaches ([] ++ [(root.column, branch.range)]) child :=
    .branch hr (hpartitions ▸ List.mem_cons_self) (hfirst ▸ List.mem_cons_self)
      (hchildren ▸ List.mem_cons_self)
  have hpath : [(root.column, branch.range)].map (·.1) = [0] :=
    congrArg (fun column => [column]) hfork.column
  exact ⟨m, root, _, child, h, hr, hfork, hbelow, hpath, hcolumn, (compile_fits h hbelow).1,
    compile_fits h hr⟩

end

end FairProgram
