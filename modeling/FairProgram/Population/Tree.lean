import FairProgram.Fit
import FairProgram.Population.ColumnSet
import FairProgram.Range

/-!
# Population trees

A node models one column. Its partitions split the line of that column's values, and each branch
holds the nodes of the columns that are modelled differently within its range.
-/

namespace FairProgram

/-- The models that hold within a range of the conditioning column. -/
structure Branch (ν : Type) where
  range : Range
  nodes : List ν

/-- Branches in increasing order of range, with the thresholds between them. -/
structure Partitioning (ν : Type) where
  thresholds : List Float
  branches : List (Branch ν)

/-- The model of one column at one place of the tree. -/
inductive Node where
  | mk (column : Nat) (name : String) (fit : Fit) (partitions : List (Partitioning Node))

namespace Node

def column : Node → Nat
  | mk column _ _ _ => column

def name : Node → String
  | mk _ name _ _ => name

def fit : Node → Fit
  | mk _ _ fit _ => fit

def partitions : Node → List (Partitioning Node)
  | mk _ _ _ partitions => partitions

def leaf (column : Nat) (name : String) (fit : Fit) : Node :=
  mk column name fit []

def isLeaf (node : Node) : Bool :=
  node.partitions.isEmpty

mutual
/-- The columns modelled by a node and below it, in the order of the tree. -/
def columns : Node → List Nat
  | mk column _ _ partitions => column :: partitionColumns partitions
def partitionColumns : List (Partitioning Node) → List Nat
  | [] => []
  | ⟨_, branches⟩ :: rest => branchColumns branches ++ partitionColumns rest
def branchColumns : List (Branch Node) → List Nat
  | [] => []
  | ⟨_, nodes⟩ :: rest => nodeColumns nodes ++ branchColumns rest
def nodeColumns : List Node → List Nat
  | [] => []
  | node :: rest => node.columns ++ nodeColumns rest
end

mutual
/-- The number of partitions nested below a node at most. -/
def depth : Node → Nat
  | mk _ _ _ partitions => partitionDepth partitions
def partitionDepth : List (Partitioning Node) → Nat
  | [] => 0
  | ⟨_, branches⟩ :: rest => max (branchDepth branches) (partitionDepth rest)
def branchDepth : List (Branch Node) → Nat
  | [] => 0
  | ⟨_, nodes⟩ :: rest => max (nodesDepth nodes) (branchDepth rest)
/-- Zero without nodes, otherwise one more than the deepest of them. -/
def nodesDepth : List Node → Nat
  | [] => 0
  | node :: rest => max (node.depth + 1) (nodesDepth rest)
end

mutual
/-- The node without descendants whose column is not kept, and without the partitions that lose all
nodes of a branch. -/
def restrict (keep : Nat → Bool) : Node → Node
  | mk column name fit partitions => mk column name fit (restrictPartitions keep partitions)
def restrictPartitions (keep : Nat → Bool) : List (Partitioning Node) → List (Partitioning Node)
  | [] => []
  | ⟨thresholds, branches⟩ :: rest =>
    let kept := restrictBranches keep branches
    if kept.any (·.nodes.isEmpty) then restrictPartitions keep rest
    else ⟨thresholds, kept⟩ :: restrictPartitions keep rest
def restrictBranches (keep : Nat → Bool) : List (Branch Node) → List (Branch Node)
  | [] => []
  | ⟨range, nodes⟩ :: rest => ⟨range, restrictNodes keep nodes⟩ :: restrictBranches keep rest
def restrictNodes (keep : Nat → Bool) : List Node → List Node
  | [] => []
  | node :: rest =>
    if keep node.column then node.restrict keep :: restrictNodes keep rest
    else restrictNodes keep rest
end

def mergeBranches (branches added : List (Branch Node)) : List (Branch Node) :=
  branches.zipIdx.map fun (branch, place) =>
    match added[place]? with
    | some other => ⟨branch.range, branch.nodes ++ other.nodes⟩
    | none => branch

/-- Adds branches to the first partition with equal thresholds, or as a new partition behind all. -/
def addBranchesTo (thresholds : List Float) (branches : List (Branch Node)) :
    List (Partitioning Node) → List (Partitioning Node)
  | [] => [⟨thresholds, branches⟩]
  | first :: rest =>
    if first.thresholds == thresholds then
      ⟨first.thresholds, mergeBranches first.branches branches⟩ :: rest
    else first :: addBranchesTo thresholds branches rest

/-- Columns that are split the same way share one partition. -/
def addBranches (thresholds : List Float) (branches : List (Branch Node)) : Node → Node
  | mk column name fit partitions =>
    mk column name fit (addBranchesTo thresholds branches partitions)

end Node

def Branch.columns (branch : Branch Node) : List Nat :=
  Node.nodeColumns branch.nodes

def Branch.columnSet (bound : Nat) (branch : Branch Node) : ColumnSet :=
  (ColumnSet.empty bound).insertAll branch.columns

/-- The branch without nodes whose column is not kept. -/
def Branch.restrict (keep : Nat → Bool) (branch : Branch Node) : Branch Node :=
  ⟨branch.range, Node.restrictNodes keep branch.nodes⟩

end FairProgram
