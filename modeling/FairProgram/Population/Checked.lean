import FairProgram.Partition.Checked
import FairProgram.Population.Compile

/-!
# Checked compilation

Compilation as it runs, which may end without an answer. It stops wherever `Population.compile` passes
over a failure: at a row or column that does not exist, at a column beyond the bound of a set, and at
columns that cannot be fitted or refined.
-/

namespace FairProgram

inductive Halt where
  | assertion
  | capacity
  /-- What is passed over with a warning. -/
  | fallback

def Halt.message : Halt → String
  | .assertion => "assertion failed"
  | .capacity => "capacity overflow"
  | .fallback => "column passed over"

def SearchError.halt : SearchError → Halt
  | .lengthMismatch | .emptyRange => .assertion
  | .capacity => .capacity
  | .fit _ => .fallback

def asserted {α : Type} : Option α → Except Halt α
  | some a => .ok a
  | none => .error .assertion

/-- The columns of a branch, where all of them are below the bound. -/
def Branch.columnSet? (bound : Nat) (branch : Branch Node) : Option ColumnSet :=
  let (columns, whole) := (ColumnSet.empty bound).extend branch.columns
  if whole then some columns else none

namespace Population

def commonColumns? (bound : Nat) : List (Branch Node) → Option ColumnSet
  | [] => some (.empty bound)
  | first :: rest => do
    let columns ← first.columnSet? bound
    rest.foldlM (fun shared branch => (branch.columnSet? bound).map shared.inter) columns

def agree? (bound : Nat) (branches : List (Branch Node)) :
    Option (List (Branch Node) × ColumnSet) :=
  match commonColumns? bound branches with
  | none => none
  | some shared =>
    let kept := Node.restrictBranches shared.contains branches
    if (Node.branchColumns branches).all shared.contains then some (kept, shared)
    else agree? bound kept
termination_by Node.branchCount branches
decreasing_by
  rename_i h
  exact Node.branchCount_restrict_lt _ _ (by simpa using h)

section
variable (d : Dataset) (deeper : List Nat → Growth → Except Halt Growth) (rows : List Nat)

def checkedSprouts (growth : Growth) (modelled : ColumnSet) (subject : Column × Nat)
    (refinement : Refinement) : Except Halt (List (Branch Node)) :=
  refinement.buckets.mapM fun bucket => do
    let branchRows ← asserted (d.filterRows? growth.node.column rows bucket.range.contains)
    let grown ← deeper branchRows ⟨Node.leaf subject.2 subject.1.name bucket.rows.fit, modelled⟩
    return ⟨bucket.range, [grown.node]⟩

def checkedAttach (growth : Growth) (subject : Column × Nat) (refinement : Refinement) :
    Except Halt Growth := do
  let (modelled, _) ← asserted (growth.modelled.insert? subject.2)
  let branches ← checkedSprouts d deeper rows growth modelled subject refinement
  let (branches, agreed) ← asserted (agree? d.width branches)
  return ⟨growth.node.addBranches refinement.thresholds branches, modelled.union agreed⟩

def checkedVisit (p : Params) (conditioning : List Float) (growth : Growth)
    (subject : Column × Nat) : Except Halt Growth :=
  if growth.modelled.contains subject.2 then .ok growth
  else do
    let values ← asserted (d.gather? subject.2 rows)
    match ← (Partition.checkedRefine p values conditioning).mapError SearchError.halt with
    | none => return growth
    | some refinement => checkedAttach d deeper rows growth subject refinement

end

def checkedGrow (p : Params) (d : Dataset) :
    (levels : Nat) → List Nat → Growth → Except Halt Growth
  | 0, _, growth => .ok growth
  | levels + 1, rows, growth => do
    let column := growth.node.column
    let conditioning ← asserted (d.gather? column rows)
    (d.columns.zipIdx.drop (column + 1)).foldlM
      (checkedVisit d (checkedGrow p d levels) rows p conditioning) growth

def checkedPlant (p : Params) (d : Dataset) (forest : Forest) (column : Column × Nat) :
    Except Halt Forest :=
  let (column, index) := column
  if forest.modelled.contains index then .ok forest
  else do
    let values ← asserted (d.gather? index d.allRows)
    match Fit.ofValues? values p with
    | none => throw .capacity
    | some (.error _) => throw .fallback
    | some (.ok fit) =>
      let (modelled, _) ← asserted (forest.modelled.insert? index)
      let grown ← checkedGrow p d p.maxDepth d.allRows ⟨Node.leaf index column.name fit, modelled⟩
      return ⟨forest.roots ++ [grown.node], grown.modelled⟩

def checkedForest (p : Params) (d : Dataset) : Except Halt Forest :=
  d.columns.zipIdx.foldlM (checkedPlant p d) ⟨[], .empty d.width⟩

def checkedCompile (p : Params) (d : Dataset) : Except Halt (Except ModelError PopulationModel) :=
  match p.validate with
  | .error e => .ok (.error (.params e))
  | .ok () =>
    if d.rows = 0 then .ok (.error .noRows)
    else match firstNonFinite? d with
      | some e => .ok (.error e)
      | none => do
        let forest ← checkedForest p d
        return .ok ⟨d.names, forest.roots⟩

end Population

end FairProgram
