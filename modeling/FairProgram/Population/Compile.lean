import FairProgram.Dataset
import FairProgram.Partition.Refinement
import FairProgram.Population.Agreement

/-!
# Compilation of population models

Columns are visited in declared order. One that is not modelled yet becomes a root with the fit of
all its values, and every later column is refined against it. The branches of a refinement are
grown in turn over their own rows, and keep what all of them model.
-/

namespace FairProgram

/-- A forest of the columns that depend on no other. -/
structure PopulationModel where
  names : List String
  roots : List Node

inductive ModelError where
  | params (error : ParamsError)
  | noRows
  | nonFinite (column : String) (value : Float) (row : Nat)

def ModelError.message : ModelError → String
  | .params error => error.message
  | .noRows => "dataset has no rows"
  | .nonFinite column value row =>
    "column '" ++ column ++ "' has non-finite value " ++ Decimal.plain value ++ " at row " ++
      toString row

namespace PopulationModel

def root? (m : PopulationModel) (name : String) : Option Node :=
  m.roots.find? fun node => node.name == name

def depth (m : PopulationModel) : Nat :=
  m.roots.foldl (fun deepest node => max deepest node.depth) 0

end PopulationModel

namespace Population

/-- A node under construction, and the columns modelled so far on its path. -/
structure Growth where
  node : Node
  modelled : ColumnSet

/-- A branch for each bucket of a refinement, grown `deeper` over the rows of the bucket. A branch
knows the subject as modelled, and nothing of what another branch models. -/
def sprouts (d : Dataset) (deeper : List Nat → Growth → Growth) (rows : List Nat) (growth : Growth)
    (subject : Column × Nat) (refinement : Refinement) : List (Branch Node) :=
  refinement.buckets.map fun bucket =>
    let branchRows := d.filterRows growth.node.column rows bucket.range.contains
    let leaf := Node.leaf subject.2 subject.1.name bucket.rows.fit
    ⟨bucket.range, [(deeper branchRows ⟨leaf, growth.modelled.insert subject.2⟩).node]⟩

/-- Adds the branches of a refinement to a node. The columns that all of them model count as
modelled. -/
def attach (d : Dataset) (deeper : List Nat → Growth → Growth) (rows : List Nat) (growth : Growth)
    (subject : Column × Nat) (refinement : Refinement) : Growth :=
  let (branches, agreed) := agree d.width (sprouts d deeper rows growth subject refinement)
  ⟨growth.node.addBranches refinement.thresholds branches,
    (growth.modelled.insert subject.2).union agreed⟩

/-- Refines a later column that is not modelled yet against the conditioning values of a node. A
column without acceptable cut stays as it is. -/
def visit (p : Params) (d : Dataset) (deeper : List Nat → Growth → Growth) (rows : List Nat)
    (conditioning : List Float) (growth : Growth) (subject : Column × Nat) : Growth :=
  if growth.modelled.contains subject.2 then growth
  else match Partition.refine p (d.gather subject.2 rows) conditioning with
    | .ok (some refinement) => attach d deeper rows growth subject refinement
    | _ => growth

/-- Refines the columns after that of a node against it, over the rows that reach the node, with at
most `levels` partitions nested. -/
def grow (p : Params) (d : Dataset) : (levels : Nat) → List Nat → Growth → Growth
  | 0, _, growth => growth
  | levels + 1, rows, growth =>
    let column := growth.node.column
    (d.columns.zipIdx.drop (column + 1)).foldl
      (visit p d (grow p d levels) rows (d.gather column rows)) growth

/-- The roots found so far, and the columns modelled by them and below them. -/
structure Forest where
  roots : List Node
  modelled : ColumnSet

/-- Makes a column that is not modelled yet a root and grows it over all rows. -/
def plant (p : Params) (d : Dataset) (forest : Forest) (column : Column × Nat) : Forest :=
  let (column, index) := column
  if forest.modelled.contains index then forest
  else match Fit.ofValues (d.gather index d.allRows) p with
    | .error _ => forest
    | .ok fit =>
      let start : Growth := ⟨Node.leaf index column.name fit, forest.modelled.insert index⟩
      let grown := grow p d p.maxDepth d.allRows start
      ⟨forest.roots ++ [grown.node], grown.modelled⟩

def forest (p : Params) (d : Dataset) : Forest :=
  d.columns.zipIdx.foldl (plant p d) ⟨[], .empty d.width⟩

def firstNonFinite? (d : Dataset) : Option ModelError :=
  d.columns.findSome? fun column =>
    (Fit.firstNonFinite? column.values).map fun (value, row) => .nonFinite column.name value row

def compile (p : Params) (d : Dataset) : Except ModelError PopulationModel :=
  match p.validate with
  | .error e => .error (.params e)
  | .ok () =>
    if d.rows = 0 then .error .noRows
    else match firstNonFinite? d with
      | some e => .error e
      | none => .ok ⟨d.names, (forest p d).roots⟩

end Population

end FairProgram
