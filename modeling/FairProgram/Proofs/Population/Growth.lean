import FairProgram.Population.Compile
import FairProgram.Proofs.Dataset.Rows
import FairProgram.Proofs.Population.Pruning

/-!
# Growing a node

The loop over the later columns and the recursion into the branches, as one induction
(`grow_induction`): a property of a growth holds at its start, a column that is left out keeps it,
and so does the attachment of branches that have it themselves.
-/

namespace FairProgram

-- ---------------------------------------------------------------------------
-- Columns in turn
-- ---------------------------------------------------------------------------

/-- What a fold over the elements from a place on, with their places, keeps at each of them. -/
theorem foldl_zipIdx_drop {α β : Type} {f : β → α × Nat → β} {I : Nat → β → Prop} {l : List α}
    {first : Nat} {start : β} (hfirst : first ≤ l.length) (h : I first start)
    (step : ∀ i (hi : i < l.length) b, first ≤ i → I i b → I (i + 1) (f b (l[i], i))) :
    I l.length ((l.zipIdx.drop first).foldl f start) := by
  by_cases hlt : first < l.length
  · have hzip : first < l.zipIdx.length := by simpa using hlt
    rw [List.drop_eq_getElem_cons hzip, List.foldl_cons, List.getElem_zipIdx, Nat.zero_add]
    exact foldl_zipIdx_drop hlt (step first hlt start (Nat.le_refl _) h)
      fun i hi b hle => step i hi b (Nat.le_of_succ_le hle)
  · have heq : first = l.length := Nat.le_antisymm hfirst (Nat.le_of_not_lt hlt)
    rw [List.drop_of_length_le (by simp [heq]), ← heq]
    exact h
termination_by l.length - first

@[simp] theorem Node.column_addBranches (thresholds : List Float) (branches : List (Branch Node))
    (node : Node) : (node.addBranches thresholds branches).column = node.column := by
  cases node
  rfl

@[simp] theorem Node.fit_addBranches (thresholds : List Float) (branches : List (Branch Node))
    (node : Node) : (node.addBranches thresholds branches).fit = node.fit := by
  cases node
  rfl

namespace Population

/-- A growth that begins: a fitted node without partitions, whose column counts as modelled. -/
structure Start (p : Params) (d : Dataset) (rows : List Nat) (growth : Growth) : Prop where
  leaf : growth.node.partitions = []
  column_lt : growth.node.column < d.width
  bound : growth.modelled.bound = d.width
  modelled : growth.modelled.contains growth.node.column = true
  rows_lt : ∀ row ∈ rows, row < d.rows
  fitted : Fit.ofValues (d.gather growth.node.column rows) p = .ok growth.node.fit

/-- The growth of a branch when it begins. -/
def sprout (growth : Growth) (subject : Column × Nat) (bucket : RefinedBucket) : Growth :=
  ⟨Node.leaf subject.2 subject.1.name bucket.rows.fit, growth.modelled.insert subject.2⟩

section
variable {p : Params} {d : Dataset} {rows : List Nat} {growth : Growth}
  {deeper : List Nat → Growth → Growth} {subject : Column × Nat} {refinement : Refinement}

theorem column_attach :
    (attach d deeper rows growth subject refinement).node.column = growth.node.column :=
  Node.column_addBranches _ _ _

theorem bound_attach :
    (attach d deeper rows growth subject refinement).modelled.bound = growth.modelled.bound :=
  ColumnSet.bound_insert growth.modelled subject.2

theorem Start.children (h : Start p d rows growth) : growth.node.children = [] := by
  rw [Node.children, h.leaf, List.flatMap_nil]

end

-- ---------------------------------------------------------------------------
-- The induction
-- ---------------------------------------------------------------------------

/-- A refinement that is attached to a node in the course of its growth. -/
structure Attaches (p : Params) (d : Dataset) (rows : List Nat) (first growth : Growth)
    (subject : Column) (index : Nat) (refinement : Refinement) : Prop where
  begun : Start p d rows first
  column_eq : growth.node.column = first.node.column
  bound : growth.modelled.bound = d.width
  subject_eq : d.columns[index]? = some subject
  later : growth.node.column < index
  fresh : growth.modelled.contains index = false
  refined : Partition.refine p (d.gather index rows) (d.gather growth.node.column rows) =
    .ok (some refinement)
  divides : Divides p d rows growth.node.column index refinement

section
variable {p : Params} {d : Dataset} {rows : List Nat} {first growth : Growth} {subject : Column}
  {index : Nat} {refinement : Refinement}

/-- A column that is visited is modelled already, has no cut, or is attached. -/
theorem visit_cases (hd : d.Finite) (hs : Start p d rows first)
    (hcolumn : growth.node.column = first.node.column) (hbound : growth.modelled.bound = d.width)
    (hsubject : d.columns[index]? = some subject) (hlater : first.node.column < index) :
    growth.modelled.contains index = true ∨
    growth.modelled.contains index = false ∧
      Partition.refine p (d.gather index rows) (d.gather first.node.column rows) = .ok none ∨
    ∃ refinement, Attaches p d rows first growth subject index refinement := by
  obtain ⟨result, hresult, hdivides⟩ := refine_divides (p := p) hd hs.rows_lt hs.column_lt
    (List.getElem?_eq_some_iff.mp hsubject).1
  cases hfresh : growth.modelled.contains index with
  | true => exact .inl rfl
  | false =>
    cases result with
    | none => exact .inr (.inl ⟨rfl, hresult⟩)
    | some refinement =>
      refine .inr (.inr ⟨refinement, ?_⟩)
      exact
        { begun := hs
          column_eq := hcolumn
          bound := hbound
          subject_eq := hsubject
          later := hcolumn ▸ hlater
          fresh := hfresh
          refined := hcolumn ▸ hresult
          divides := hcolumn ▸ hdivides refinement rfl }

theorem visit_of_modelled {deeper : List Nat → Growth → Growth} {conditioning : List Float}
    (h : growth.modelled.contains index = true) :
    visit p d deeper rows conditioning growth (subject, index) = growth :=
  if_pos h

theorem visit_of_uncut {deeper : List Nat → Growth → Growth} {conditioning : List Float}
    (hr : Partition.refine p (d.gather index rows) conditioning = .ok none) :
    visit p d deeper rows conditioning growth (subject, index) = growth := by
  rw [visit, hr]
  exact ite_self growth

theorem Attaches.visit_eq (h : Attaches p d rows first growth subject index refinement)
    (deeper : List Nat → Growth → Growth) :
    visit p d deeper rows (d.gather first.node.column rows) growth (subject, index) =
      attach d deeper rows growth (subject, index) refinement := by
  rw [visit, h.fresh, ← h.column_eq, h.refined]
  rfl

theorem Attaches.index_lt (h : Attaches p d rows first growth subject index refinement) :
    index < d.width :=
  (List.getElem?_eq_some_iff.mp h.subject_eq).1

theorem Attaches.start_sprout (h : Attaches p d rows first growth subject index refinement)
    {bucket : RefinedBucket} (hb : bucket ∈ refinement.buckets) :
    Start p d (d.filterRows growth.node.column rows bucket.range.contains)
      (sprout growth (subject, index) bucket) where
  leaf := rfl
  column_lt := h.index_lt
  bound := (ColumnSet.bound_insert _ _).trans h.bound
  modelled := (ColumnSet.contains_insert_iff (h.bound ▸ h.index_lt)).mpr (.inl rfl)
  rows_lt := fun row hrow => h.begun.rows_lt row (Dataset.filterRows_subset hrow)
  fitted := h.divides.fitted bucket hb

theorem Attaches.sprouts_ne_nil (h : Attaches p d rows first growth subject index refinement)
    (deeper : List Nat → Growth → Growth) :
    sprouts d deeper rows growth (subject, index) refinement ≠ [] := by
  refine List.ne_nil_of_length_pos ?_
  rw [sprouts, List.length_map]
  exact Nat.zero_lt_of_lt h.divides.several

end

section
variable {p : Params} {d : Dataset} {I : Nat → List Nat → Growth → Nat → Growth → Prop}

/-- What holds of growths of so many levels, over rows, from a start to a next column. -/
theorem grow_induction (hd : d.Finite)
    (start : ∀ levels rows start, Start p d rows start →
      I levels rows start (start.node.column + 1) start)
    (skip : ∀ levels rows start next growth, next < d.width →
      I levels rows start next growth → I levels rows start (next + 1) growth)
    (attach : ∀ levels rows start next growth refinement subject,
      Attaches p d rows start growth subject next refinement → I (levels + 1) rows start next growth →
      (∀ bucket ∈ refinement.buckets,
        I levels (d.filterRows growth.node.column rows bucket.range.contains)
          (sprout growth (subject, next) bucket) d.width
          (grow p d levels (d.filterRows growth.node.column rows bucket.range.contains)
            (sprout growth (subject, next) bucket))) →
      I (levels + 1) rows start (next + 1)
        (Population.attach d (grow p d levels) rows growth (subject, next) refinement))
    (levels : Nat) {rows : List Nat} {first : Growth} (hs : Start p d rows first) :
    I levels rows first d.width (grow p d levels rows first) := by
  induction levels generalizing rows first with
  | zero =>
    have hall : ∀ next, first.node.column + 1 ≤ next → next ≤ d.width → I 0 rows first next first := by
      intro next hle
      induction next, hle using Nat.le_induction with
      | base => exact fun _ => start 0 rows first hs
      | succ next _ ih => exact fun hlt => skip 0 rows first next first hlt (ih (Nat.le_of_lt hlt))
    exact hall d.width hs.column_lt (Nat.le_refl _)
  | succ levels ih =>
    have hfold := foldl_zipIdx_drop (l := d.columns)
      (f := visit p d (grow p d levels) rows (d.gather first.node.column rows))
      (I := fun next growth => I (levels + 1) rows first next growth ∧
        growth.node.column = first.node.column ∧ growth.modelled.bound = d.width)
      hs.column_lt ⟨start (levels + 1) rows first hs, rfl, hs.bound⟩ ?_
    · exact hfold.1
    rintro next hnext growth hlater ⟨hI, hcolumn, hbound⟩
    have hskip := skip (levels + 1) rows first next growth hnext hI
    have hsubject : d.columns[next]? = some d.columns[next] := List.getElem?_eq_getElem hnext
    obtain hm | ⟨-, hnone⟩ | ⟨refinement, ha⟩ :=
      visit_cases hd hs hcolumn hbound hsubject hlater
    · rw [visit_of_modelled hm]
      exact ⟨hskip, hcolumn, hbound⟩
    · rw [visit_of_uncut hnone]
      exact ⟨hskip, hcolumn, hbound⟩
    · rw [ha.visit_eq]
      exact ⟨attach levels rows first next growth refinement _ ha hI
          fun bucket hb => ih (ha.start_sprout hb),
        column_attach.trans hcolumn, bound_attach.trans hbound⟩

theorem column_grow (hd : d.Finite) (levels : Nat) {rows : List Nat} {first : Growth}
    (hs : Start p d rows first) :
    (grow p d levels rows first).node.column = first.node.column := by
  refine grow_induction (I := fun _ _ first _ growth => growth.node.column = first.node.column)
    hd ?_ ?_ ?_ levels hs
  · exact fun _ _ _ _ => rfl
  · exact fun _ _ _ _ _ _ h => h
  · exact fun _ _ _ _ _ _ _ _ h _ => column_attach.trans h

theorem bound_grow (hd : d.Finite) (levels : Nat) {rows : List Nat} {first : Growth}
    (hs : Start p d rows first) : (grow p d levels rows first).modelled.bound = d.width := by
  refine grow_induction (I := fun _ _ _ _ growth => growth.modelled.bound = d.width)
    hd ?_ ?_ ?_ levels hs
  · exact fun _ _ _ h => h.bound
  · exact fun _ _ _ _ _ _ h => h
  · exact fun _ _ _ _ _ _ _ _ h _ => bound_attach.trans h

end

end Population

-- ---------------------------------------------------------------------------
-- Added branches
-- ---------------------------------------------------------------------------

/-- A partition whose ranges cover the line and meet at its thresholds. -/
structure Partitioning.Covers (partition : Partitioning Node) : Prop where
  chain : Range.Chain (-1 / 0) (partition.branches.map (·.range)) (1 / 0)
  thresholds_eq : partition.thresholds =
    (partition.branches.map (·.range)).dropLast.map (·.upper)

theorem Partitioning.Covers.thresholds_beq {partition : Partitioning Node} (h : partition.Covers) :
    (partition.thresholds == partition.thresholds) = true := by
  refine Double.beq_self fun t ht => ?_
  rw [h.thresholds_eq] at ht
  obtain ⟨r, hr, rfl⟩ := List.mem_map.mp ht
  exact h.chain.isNaN_upper r (List.dropLast_subset _ hr)

namespace Node

variable {thresholds : List Float} {branches added : List (Branch Node)}

theorem ranges_mergeBranches (branches added : List (Branch Node)) :
    (mergeBranches branches added).map (·.range) = branches.map (·.range) := by
  rw [mergeBranches, List.map_map, ← List.zipIdx_map_fst 0 branches, List.map_map,
    List.zipIdx_map_fst]
  refine List.map_congr_left ?_
  rintro ⟨branch, place⟩ -
  simp only [Function.comp_apply]
  split <;> rfl

theorem mergeBranches_eq (h : branches.length = added.length) : mergeBranches branches added =
    List.zipWith (fun branch other => ⟨branch.range, branch.nodes ++ other.nodes⟩) branches added := by
  refine List.ext_getElem (by simp [mergeBranches, h]) fun i hi hi' => ?_
  have hlt : i < added.length := by simp [mergeBranches] at hi; omega
  simp [mergeBranches, List.getElem?_eq_getElem hlt]

/-- Branches of partitions with equal thresholds have, place by place, ranges that hold the same
values. -/
theorem ranges_alike {first : Partitioning Node} (hfirst : first.Covers)
    (hadded : Partitioning.Covers ⟨thresholds, added⟩)
    (hsame : (first.thresholds == thresholds) = true) :
    List.Forall₂ (fun old new : Branch Node => ∀ v, old.range.contains v = new.range.contains v)
      first.branches added := by
  have hne {partition : Partitioning Node} (h : partition.Covers) :
      partition.branches.map (·.range) ≠ [] := h.chain.ne_nil (by decide)
  have hranges := hfirst.chain.contains_congr hadded.chain (hne hfirst) (hne hadded) (by decide)
    (by rw [← hfirst.thresholds_eq, ← hadded.thresholds_eq]; exact hsame)
  rw [List.forall₂_map_left_iff, List.forall₂_map_right_iff] at hranges
  exact hranges

theorem exists_of_mem_mergeBranches {S : Branch Node → Branch Node → Prop}
    (h : List.Forall₂ S branches added) {branch : Branch Node}
    (hb : branch ∈ mergeBranches branches added) :
    ∃ old ∈ branches, ∃ new ∈ added, S old new ∧ branch = ⟨old.range, old.nodes ++ new.nodes⟩ := by
  rw [mergeBranches_eq h.length_eq] at hb
  obtain ⟨i, hi, rfl⟩ := List.mem_iff_getElem.mp hb
  rw [List.length_zipWith, Nat.lt_min] at hi
  rw [List.getElem_zipWith]
  exact ⟨_, List.getElem_mem hi.1, _, List.getElem_mem hi.2, h.get hi.1 hi.2, rfl⟩

theorem mem_nodes_mergeBranches (h : branches.length = added.length) {child : Node} :
    (∃ branch ∈ mergeBranches branches added, child ∈ branch.nodes) ↔
      (∃ old ∈ branches, child ∈ old.nodes) ∨ ∃ new ∈ added, child ∈ new.nodes := by
  rw [mergeBranches_eq h]
  induction branches generalizing added with
  | nil =>
    cases added with
    | nil => simp
    | cons => simp at h
  | cons branch rest ih =>
    cases added with
    | nil => simp at h
    | cons other others =>
      rw [List.zipWith_cons_cons, List.exists_mem_cons_iff, List.exists_mem_cons_iff,
        List.exists_mem_cons_iff, ih (by simpa using h), List.mem_append]
      grind

/-- Where added branches go: to a partition with equal thresholds, or behind all partitions. -/
theorem partitions_addBranches (thresholds : List Float) (added : List (Branch Node))
    (node : Node) :
    (node.addBranches thresholds added).partitions = node.partitions ++ [⟨thresholds, added⟩] ∨
    ∃ before first after, node.partitions = before ++ first :: after ∧
      (first.thresholds == thresholds) = true ∧
      (node.addBranches thresholds added).partitions =
        before ++ ⟨first.thresholds, mergeBranches first.branches added⟩ :: after := by
  have haddto (partitions : List (Partitioning Node)) :
      addBranchesTo thresholds added partitions = partitions ++ [⟨thresholds, added⟩] ∨
      ∃ before first after, partitions = before ++ first :: after ∧
        (first.thresholds == thresholds) = true ∧
        addBranchesTo thresholds added partitions =
          before ++ ⟨first.thresholds, mergeBranches first.branches added⟩ :: after := by
    induction partitions with
    | nil => exact .inl rfl
    | cons first rest ih =>
      rw [addBranchesTo]
      split
      · rename_i hsame
        exact .inr ⟨[], first, rest, rfl, hsame, rfl⟩
      · obtain heq | ⟨before, next, after, rfl, hsame, heq⟩ := ih
        · exact .inl (by rw [heq, List.cons_append])
        · exact .inr ⟨first :: before, next, after, rfl, hsame, by rw [heq, List.cons_append]⟩
  cases node with
  | mk column name fit partitions => exact haddto partitions

/-- What holds of the partitions of a node and of added branches, and is kept where branches of
equal thresholds join. -/
theorem forall_partitions_addBranches {P : Partitioning Node → Prop} {node : Node}
    (hold : ∀ partition ∈ node.partitions, P partition) (hnew : P ⟨thresholds, added⟩)
    (hmerge : ∀ first ∈ node.partitions, (first.thresholds == thresholds) = true →
      P ⟨first.thresholds, mergeBranches first.branches added⟩) :
    ∀ partition ∈ (node.addBranches thresholds added).partitions, P partition := by
  intro partition hp
  obtain heq | ⟨before, first, after, hparts, hsame, heq⟩ :=
    partitions_addBranches thresholds added node
  · rw [heq] at hp
    obtain hp | hp := List.mem_append.mp hp
    · exact hold partition hp
    · exact List.mem_singleton.mp hp ▸ hnew
  · rw [heq, List.mem_append, List.mem_cons] at hp
    obtain hp | rfl | hp := hp
    · exact hold partition (by rw [hparts]; simp [hp])
    · exact hmerge first (by rw [hparts]; simp) hsame
    · exact hold partition (by rw [hparts]; simp [hp])

/-- A node with added branches has the children that it had and those of the branches. -/
theorem mem_children_addBranches {node child : Node} (hnode : ∀ q ∈ node.partitions, q.Covers)
    (hadded : Partitioning.Covers ⟨thresholds, added⟩) :
    child ∈ (node.addBranches thresholds added).children ↔
      child ∈ node.children ∨ ∃ branch ∈ added, child ∈ branch.nodes := by
  simp only [mem_children]
  obtain heq | ⟨before, first, after, hparts, hsame, heq⟩ :=
    partitions_addBranches thresholds added node
  · rw [heq]
    simp [or_and_right, exists_or]
  · have hlen := (ranges_alike (hnode first (by simp [hparts])) hadded hsame).length_eq
    rw [heq, hparts]
    simp only [List.mem_append, List.mem_cons, or_and_right, exists_or, exists_eq_left,
      mem_nodes_mergeBranches hlen]
    grind

theorem mem_columns_addBranches {node : Node} (hnode : ∀ q ∈ node.partitions, q.Covers)
    (hadded : Partitioning.Covers ⟨thresholds, added⟩) {c : Nat} :
    c ∈ (node.addBranches thresholds added).columns ↔
      c ∈ node.columns ∨ ∃ branch ∈ added, c ∈ branch.columns := by
  rw [mem_columns, mem_columns, column_addBranches]
  simp only [mem_children_addBranches hnode hadded, Branch.mem_columns]
  constructor
  · rintro (rfl | ⟨child, hchild | ⟨branch, hb, hchild⟩, hc⟩)
    · exact .inl (.inl rfl)
    · exact .inl (.inr ⟨child, hchild, hc⟩)
    · exact .inr ⟨branch, hb, child, hchild, hc⟩
  · rintro ((rfl | ⟨child, hchild, hc⟩) | ⟨branch, hb, child, hchild, hc⟩)
    · exact .inl rfl
    · exact .inr ⟨child, .inl hchild, hc⟩
    · exact .inr ⟨child, .inr ⟨branch, hb, hchild⟩, hc⟩

end Node

namespace Population

/-- A branch with one node, which models a column and has a property in its range. -/
def IsSprout (R : Range → Node → Prop) (column : Nat) (branch : Branch Node) : Prop :=
  ∃ node, branch.nodes = [node] ∧ node.column = column ∧ R branch.range node

section
variable {R : Range → Node → Prop} {column : Nat} {branches : List (Branch Node)}

theorem IsSprout.column_mem {branch : Branch Node} (h : IsSprout R column branch) :
    column ∈ branch.columns := by
  obtain ⟨node, hn, rfl, -⟩ := h
  exact Branch.mem_columns.mpr ⟨node, by simp [hn], node.column_mem_columns⟩

theorem IsSprout.of_mem {branch : Branch Node} {child : Node} (h : IsSprout R column branch)
    (hc : child ∈ branch.nodes) : child.column = column ∧ R branch.range child := by
  obtain ⟨node, hn, hcolumn, hR⟩ := h
  obtain rfl := List.mem_singleton.mp (hn ▸ hc)
  exact ⟨hcolumn, hR⟩

theorem IsSprout.restrict {keep : Nat → Bool} {branch : Branch Node}
    (hr : ∀ range node, R range node → R range (node.restrict keep)) (hk : keep column = true)
    (h : IsSprout R column branch) : IsSprout R column (branch.restrict keep) := by
  obtain ⟨node, hn, rfl, hR⟩ := h
  refine ⟨node.restrict keep, ?_, Node.column_restrict node, hr _ _ hR⟩
  simp [Branch.restrict, Node.restrictNodes_eq, hn, hk]

/-- Agreement of branches that start with one column leaves them their ranges and that column, and
whatever restriction does not take from their nodes. -/
theorem agree_sprouts {bound : Nat} (hne : branches ≠ []) (hc : column < bound)
    (h : ∀ branch ∈ branches, IsSprout R column branch)
    (hr : ∀ keep range node, R range node → R range (node.restrict keep)) :
    (agree bound branches).1.map (·.range) = branches.map (·.range) ∧
      ∀ branch ∈ (agree bound branches).1, IsSprout R column branch := by
  refine (agree_induction (fun kept => kept ≠ [] ∧
    kept.map (·.range) = branches.map (·.range) ∧ ∀ branch ∈ kept, IsSprout R column branch)
    ⟨hne, rfl, h⟩ ?_).2
  rintro kept ⟨hne, hranges, hall⟩
  refine ⟨by simpa using hne, ?_, ?_⟩
  · rw [List.map_map]
    exact hranges
  · have hk : (commonColumns bound kept).contains column = true :=
      (contains_commonColumns hne).mpr ⟨hc, fun branch hb => (hall branch hb).column_mem⟩
    intro branch hb
    obtain ⟨original, ho, rfl⟩ := List.mem_map.mp hb
    exact (hall original ho).restrict (hr _) hk

end

section
variable {p : Params} {d : Dataset} {rows : List Nat} {first growth : Growth} {subject : Column}
  {index : Nat} {refinement : Refinement}

/-- The branches that are attached make a partition with the thresholds of the refinement, and keep
what restriction does not take from the nodes grown for its buckets. -/
theorem Attaches.sprouts_ok (hd : d.Finite) (levels : Nat)
    (h : Attaches p d rows first growth subject index refinement) {R : Range → Node → Prop}
    (hR : ∀ bucket ∈ refinement.buckets, R bucket.range
      (grow p d levels (d.filterRows growth.node.column rows bucket.range.contains)
        (sprout growth (subject, index) bucket)).node)
    (hr : ∀ keep range node, R range node → R range (node.restrict keep)) :
    ∃ added agreed, agree d.width
        (sprouts d (grow p d levels) rows growth (subject, index) refinement) = (added, agreed) ∧
      attach d (grow p d levels) rows growth (subject, index) refinement =
        ⟨growth.node.addBranches refinement.thresholds added,
          (growth.modelled.insert index).union agreed⟩ ∧
      Partitioning.Covers ⟨refinement.thresholds, added⟩ ∧ 1 < added.length ∧
      ∀ branch ∈ added, IsSprout R index branch := by
  have hsprouts : ∀ branch ∈ sprouts d (grow p d levels) rows growth (subject, index) refinement,
      IsSprout R index branch := by
    intro branch hb
    obtain ⟨bucket, hbucket, rfl⟩ := List.mem_map.mp hb
    exact ⟨_, rfl, column_grow hd levels (h.start_sprout hbucket), hR bucket hbucket⟩
  obtain ⟨hranges, hadded⟩ := agree_sprouts (h.sprouts_ne_nil _) h.index_lt hsprouts hr
  have hbuckets : (sprouts d (grow p d levels) rows growth (subject, index) refinement).map
      (·.range) = refinement.buckets.map (·.range) := List.map_map
  rw [hbuckets] at hranges
  refine ⟨_, _, rfl, rfl, ⟨hranges ▸ h.divides.chain, ?_⟩, ?_, hadded⟩
  · rw [hranges, Refinement.thresholds, ← List.map_dropLast, List.map_map]
    rfl
  · have hlen := congrArg List.length hranges
    rw [List.length_map, List.length_map] at hlen
    exact hlen ▸ h.divides.several

theorem Attaches.mem_agreed (h : Attaches p d rows first growth subject index refinement)
    {deeper : List Nat → Growth → Growth} {added : List (Branch Node)} {agreed : ColumnSet}
    (hagree : agree d.width (sprouts d deeper rows growth (subject, index) refinement) =
      (added, agreed))
    (hf : ∀ bucket ∈ refinement.buckets,
      (deeper (d.filterRows growth.node.column rows bucket.range.contains)
        (sprout growth (subject, index) bucket)).node.Filled) :
    agreed.bound = d.width ∧
      ∀ branch ∈ added, ∀ c, c ∈ branch.columns ↔ agreed.contains c = true := by
  have hfilled : ∀ branch ∈ sprouts d deeper rows growth (subject, index) refinement,
      ∀ node ∈ branch.nodes, node.Filled := by
    intro branch hb node hn
    obtain ⟨bucket, hbucket, rfl⟩ := List.mem_map.mp hb
    obtain rfl := List.mem_singleton.mp hn
    exact hf bucket hbucket
  have hmem := mem_columns_of_mem_agree d.width (h.sprouts_ne_nil deeper) hfilled
  have hbound := bound_agree d.width (sprouts d deeper rows growth (subject, index) refinement)
  rw [hagree] at hmem hbound
  exact ⟨hbound, hmem⟩

/-- The columns that count as modelled after an attachment are those that counted before and those
that the branches agree on. -/
theorem Attaches.contains_union (h : Attaches p d rows first growth subject index refinement)
    {agreed : ColumnSet} (hbound : agreed.bound = d.width)
    (hc : agreed.contains index = true) (c : Nat) :
    ((growth.modelled.insert index).union agreed).contains c = true ↔
      growth.modelled.contains c = true ∨ agreed.contains c = true := by
  rw [ColumnSet.contains_union ((ColumnSet.bound_insert _ _).trans (h.bound.trans hbound.symm)),
    Bool.or_eq_true, ColumnSet.contains_insert_iff (h.bound ▸ h.index_lt)]
  constructor
  · rintro ((rfl | hm) | hm)
    · exact .inr hc
    · exact .inl hm
    · exact .inr hm
  · rintro (hm | hm)
    · exact .inl (.inr hm)
    · exact .inr hm

end

-- ---------------------------------------------------------------------------
-- The forest
-- ---------------------------------------------------------------------------

section
variable {p : Params} {d : Dataset} {I : Nat → Forest → Prop}

/-- A column that is planted is modelled already, or has a fit and starts to grow. -/
theorem plant_cases {forest : Forest} {column : Column} {index : Nat} (hd : d.Finite)
    (hr : d.rows ≠ 0) (hbound : forest.modelled.bound = d.width)
    (hcolumn : d.columns[index]? = some column) :
    forest.modelled.contains index = true ∨ ∃ fit,
      forest.modelled.contains index = false ∧
      Fit.ofValues (d.gather index d.allRows) p = .ok fit ∧
      Start p d d.allRows ⟨Node.leaf index column.name fit, forest.modelled.insert index⟩ := by
  have hindex : index < d.width := (List.getElem?_eq_some_iff.mp hcolumn).1
  have hne : d.gather index d.allRows ≠ [] :=
    Dataset.gather_ne_nil hindex (List.mem_range.mpr (Nat.pos_of_ne_zero hr)) (Nat.pos_of_ne_zero hr)
  obtain ⟨fit, hfit⟩ := Fit.exists_ofValues p hne fun v hv => hd.of_mem_gather hv
  cases hfresh : forest.modelled.contains index with
  | true => exact .inl rfl
  | false =>
    refine .inr ⟨fit, rfl, hfit, ?_⟩
    exact
      { leaf := rfl
        column_lt := hindex
        bound := (ColumnSet.bound_insert _ _).trans hbound
        modelled := (ColumnSet.contains_insert_iff (hbound ▸ hindex)).mpr (.inl rfl)
        rows_lt := fun row hrow => List.mem_range.mp hrow
        fitted := hfit }

/-- What holds of the forests up to a next column. -/
theorem forest_induction (hd : d.Finite) (hr : d.rows ≠ 0) (start : I 0 ⟨[], .empty d.width⟩)
    (skip : ∀ next forest, forest.modelled.contains next = true → I next forest →
      I (next + 1) forest)
    (plant : ∀ next forest first, forest.modelled.bound = d.width →
      forest.modelled.contains next = false → first.node.column = next →
      first.modelled = forest.modelled.insert next → Start p d d.allRows first → I next forest →
      I (next + 1) ⟨forest.roots ++ [(grow p d p.maxDepth d.allRows first).node],
        (grow p d p.maxDepth d.allRows first).modelled⟩) :
    I d.width (forest p d) := by
  have hfold := foldl_zipIdx_drop (l := d.columns) (f := Population.plant p d)
    (I := fun next forest => I next forest ∧ forest.modelled.bound = d.width)
    (Nat.zero_le _) ⟨start, rfl⟩ ?_
  · exact hfold.1
  rintro next hnext forest - ⟨hI, hbound⟩
  have hcolumn : d.columns[next]? = some d.columns[next] := List.getElem?_eq_getElem hnext
  rw [Population.plant]
  obtain hm | ⟨fit, hfresh, hfit, hs⟩ := plant_cases (p := p) hd hr hbound hcolumn
  · rw [if_pos hm]
    exact ⟨skip next forest hm hI, hbound⟩
  · rw [if_neg (Bool.eq_false_iff.mp hfresh), hfit]
    exact ⟨plant next forest _ hbound hfresh rfl rfl hs hI, bound_grow hd p.maxDepth hs⟩

theorem firstNonFinite?_eq_none_iff : firstNonFinite? d = none ↔ d.Finite := by
  simp only [firstNonFinite?, List.findSome?_eq_none_iff, Option.map_eq_none_iff,
    Fit.firstNonFinite?_eq_none_iff]
  constructor
  · intro h column row v hv
    obtain ⟨c, hc, hv⟩ := Option.bind_eq_some_iff.mp hv
    exact h c (List.mem_of_getElem? hc) v (List.mem_of_getElem? hv)
  · intro h c hc v hv
    obtain ⟨column, hcolumn⟩ := List.mem_iff_getElem?.mp hc
    obtain ⟨row, hrow⟩ := List.mem_iff_getElem?.mp hv
    exact h column row v (by rw [Dataset.cell?, hcolumn, Option.bind_some, hrow])

theorem compile_eq_ok_iff {m : PopulationModel} : compile p d = .ok m ↔
    p.validate = .ok () ∧ d.rows ≠ 0 ∧ d.Finite ∧ m = ⟨d.names, (forest p d).roots⟩ := by
  rw [← firstNonFinite?_eq_none_iff, compile]
  constructor
  · intro h
    split at h
    · cases h
    · rename_i hvalid
      split at h
      · cases h
      · rename_i hrows
        split at h
        · cases h
        · rename_i hnone
          cases h
          exact ⟨hvalid, hrows, hnone, rfl⟩
  · rintro ⟨hvalid, hrows, hnone, rfl⟩
    rw [hvalid, hnone]
    simp only [hrows, if_false]

end

/-- Two columns of two rows. -/
def pair : Dataset where
  columns := [⟨"group", [0, 1]⟩, ⟨"score", [2, 3]⟩]
  rows := 2
  columns_ne_nil := List.cons_ne_nil _ _
  length_values := by decide
  names_nodup := by decide

end Population

end FairProgram
