import FairProgram.Proofs.Population.Partitions
import FairProgram.Proofs.Program.Script
import FairProgram.Proofs.Rule.Paths

/-!
# Draws of a population

What the tree of a population model says as draws of columns and tests of columns against bounds.
Every column is drawn before it is tested (`Node.provides_nodeDraws`). Run on finite values, the
draws are those of a walk: all roots, and of each partition the nodes of the first branch whose range
contains the value of its column (`Node.runAll_nodeDraws`).
-/

namespace FairProgram

/-- A statement of a population: a column is drawn from a distribution, known by its text, or its
value is tested against a bound. -/
abbrev Draw := Command String (String × Float)

namespace Draw

mutual
/-- The columns drawn in order, where columns have these values. -/
def run (value : String → Float) : Draw → List (String × String)
  | .assign name fit => [(name, fit)]
  | .branch (name, bound) yes no =>
    if value name ≤ bound then runAll value yes else runAll value no
def runAll (value : String → Float) : List Draw → List (String × String)
  | [] => []
  | draw :: rest => draw.run value ++ runAll value rest
end

mutual
/-- The bounds of all tests in the order of the text. -/
def bounds : Draw → List Float
  | .assign _ _ => []
  | .branch (_, bound) yes no => bound :: (boundsAll yes ++ boundsAll no)
def boundsAll : List Draw → List Float
  | [] => []
  | draw :: rest => draw.bounds ++ boundsAll rest
end

mutual
/-- The accesses along each path, whatever the tests say. -/
def paths : Draw → List (List Access)
  | .assign name _ => [[.write name]]
  | .branch (name, _) yes no => (pathsAll yes ++ pathsAll no).map (.read name :: ·)
def pathsAll : List Draw → List (List Access)
  | [] => [[]]
  | draw :: rest => draw.paths.flatMap fun path => (pathsAll rest).map (path ++ ·)
end

variable {value : String → Float} {known : List String} {draws others : List Draw}

@[simp] theorem runAll_append :
    runAll value (draws ++ others) = runAll value draws ++ runAll value others := by
  induction draws with
  | nil => rfl
  | cons draw rest ih => simp [runAll, ih]

@[simp] theorem boundsAll_append : boundsAll (draws ++ others) = boundsAll draws ++ boundsAll others := by
  induction draws with
  | nil => rfl
  | cons draw rest ih => simp [boundsAll, ih]

theorem pathsAll_append : pathsAll (draws ++ others) =
    (pathsAll draws).flatMap fun path => (pathsAll others).map (path ++ ·) := by
  induction draws with
  | nil => simp [pathsAll]
  | cons draw rest ih =>
    simp [pathsAll, ih, List.flatMap_assoc, List.flatMap_map, List.map_flatMap, Function.comp_def]

theorem provides_nil : Provides known (pathsAll []) known := by
  simpa [pathsAll] using provides_reads (List.nil_subset known)

theorem provides_append {between provided : List String}
    (h : Provides known (pathsAll draws) between) (h' : Provides between (pathsAll others) provided) :
    Provides known (pathsAll (draws ++ others)) provided := by
  rw [pathsAll_append]
  exact h.append h'

theorem provides_assign {name fit : String} :
    Provides known (pathsAll [.assign name fit]) (name :: known) := by
  simpa [pathsAll, paths] using provides_write name

theorem provides_branch {name : String} {bound : Float} (hn : name ∈ known)
    (hyes : Provides known (pathsAll draws) known) (hno : Provides known (pathsAll others) known) :
    Provides known (pathsAll [.branch (name, bound) draws others]) known := by
  have hname : [name] ⊆ known := List.cons_subset.mpr ⟨hn, List.nil_subset known⟩
  simpa [pathsAll, paths] using (provides_reads hname).append (hyes.either hno)

end Draw

-- ---------------------------------------------------------------------------
-- Walks and bounds of a tree
-- ---------------------------------------------------------------------------

namespace Node

mutual
/-- A node and what is visited below it, where columns have these values: of each partition in order
the nodes of the first branch whose range contains the value of the node's column. -/
def visited (value : String → Float) : Node → List Node
  | mk column name fit partitions =>
    mk column name fit partitions :: visitedPartitions value name partitions
def visitedPartitions (value : String → Float) (name : String) :
    List (Partitioning Node) → List Node
  | [] => []
  | ⟨_, branches⟩ :: rest =>
    visitedBranch value name branches ++ visitedPartitions value name rest
def visitedBranch (value : String → Float) (name : String) : List (Branch Node) → List Node
  | [] => []
  | ⟨range, nodes⟩ :: rest =>
    if range.contains (value name) then visitedNodes value nodes
    else visitedBranch value name rest
def visitedNodes (value : String → Float) : List Node → List Node
  | [] => []
  | node :: rest => node.visited value ++ visitedNodes value rest
end

mutual
/-- The upper bounds of all branches but the last of each partition, in the order of the tree. -/
def bounds : Node → List Float
  | mk _ _ _ partitions => partitionBounds partitions
def partitionBounds : List (Partitioning Node) → List Float
  | [] => []
  | ⟨_, branches⟩ :: rest => branchBounds branches ++ partitionBounds rest
def branchBounds : List (Branch Node) → List Float
  | [] => []
  | [⟨_, nodes⟩] => nodeBounds nodes
  | ⟨range, nodes⟩ :: next :: rest =>
    range.upper :: (nodeBounds nodes ++ branchBounds (next :: rest))
def nodeBounds : List Node → List Float
  | [] => []
  | node :: rest => node.bounds ++ nodeBounds rest
end

mutual
/-- The draws that the lines of a node print. -/
def draws (places : Nat) : Node → List Draw
  | mk _ name fit partitions =>
    .assign name (fit.render places) :: partitionDraws places name partitions
def partitionDraws (places : Nat) (name : String) : List (Partitioning Node) → List Draw
  | [] => []
  | ⟨_, branches⟩ :: rest => branchDraws places name branches ++ partitionDraws places name rest
/-- The last branch takes what the tests of the others leave. -/
def branchDraws (places : Nat) (name : String) : List (Branch Node) → List Draw
  | [] => []
  | [⟨_, nodes⟩] => nodeDraws places nodes
  | ⟨range, nodes⟩ :: next :: rest =>
    [.branch (name, range.upper) (nodeDraws places nodes) (branchDraws places name (next :: rest))]
def nodeDraws (places : Nat) : List Node → List Draw
  | [] => []
  | node :: rest => node.draws places ++ nodeDraws places rest
end

section
variable (places : Nat)

mutual
theorem boundsAll_draws : (node : Node) → Draw.boundsAll (node.draws places) = node.bounds
  | mk _ name _ partitions => boundsAll_partitionDraws name partitions
theorem boundsAll_partitionDraws (name : String) : (partitions : List (Partitioning Node)) →
    Draw.boundsAll (partitionDraws places name partitions) = partitionBounds partitions
  | [] => rfl
  | ⟨_, branches⟩ :: rest => by
    simp [partitionDraws, partitionBounds, boundsAll_branchDraws name branches,
      boundsAll_partitionDraws name rest]
theorem boundsAll_branchDraws (name : String) : (branches : List (Branch Node)) →
    Draw.boundsAll (branchDraws places name branches) = branchBounds branches
  | [] => rfl
  | [⟨_, nodes⟩] => by simp [branchDraws, branchBounds, boundsAll_nodeDraws nodes]
  | ⟨_, nodes⟩ :: next :: rest => by
    simp [branchDraws, branchBounds, Draw.boundsAll, Draw.bounds, boundsAll_nodeDraws nodes,
      boundsAll_branchDraws name (next :: rest)]
theorem boundsAll_nodeDraws : (nodes : List Node) →
    Draw.boundsAll (nodeDraws places nodes) = nodeBounds nodes
  | [] => rfl
  | node :: rest => by
    simp [nodeDraws, nodeBounds, boundsAll_draws node, boundsAll_nodeDraws rest]
end

mutual
/-- On every path of the draws of a node each column that is tested has been drawn. -/
theorem provides_draws {known : List String} : (node : Node) →
    Provides known (Draw.pathsAll (node.draws places)) known
  | mk _ _ _ partitions =>
    (Draw.provides_append Draw.provides_assign
      (provides_partitionDraws List.mem_cons_self partitions)).mono (List.subset_cons_self _ _)
theorem provides_partitionDraws {known : List String} {name : String} (hn : name ∈ known) :
    (partitions : List (Partitioning Node)) →
    Provides known (Draw.pathsAll (partitionDraws places name partitions)) known
  | [] => Draw.provides_nil
  | ⟨_, branches⟩ :: rest =>
    Draw.provides_append (provides_branchDraws hn branches) (provides_partitionDraws hn rest)
theorem provides_branchDraws {known : List String} {name : String} (hn : name ∈ known) :
    (branches : List (Branch Node)) →
    Provides known (Draw.pathsAll (branchDraws places name branches)) known
  | [] => Draw.provides_nil
  | [⟨_, nodes⟩] => provides_nodeDraws nodes
  | ⟨_, nodes⟩ :: next :: rest =>
    Draw.provides_branch hn (provides_nodeDraws nodes) (provides_branchDraws hn (next :: rest))
theorem provides_nodeDraws {known : List String} : (nodes : List Node) →
    Provides known (Draw.pathsAll (nodeDraws places nodes)) known
  | [] => Draw.provides_nil
  | node :: rest => Draw.provides_append (provides_draws node) (provides_nodeDraws rest)
end

end

-- ---------------------------------------------------------------------------
-- Running the draws
-- ---------------------------------------------------------------------------

/-- The values of a node's column lie in the ranges of its partitions, which cover the line. -/
structure Runnable (value : String → Float) (node : Node) : Prop where
  covers : ∀ partition ∈ node.partitions, partition.Covers
  finite : (value node.name).isFinite = true

section
variable (places : Nat) {value : String → Float}

/-- What running draws of a visited node are: its column and its distribution. -/
def draw (node : Node) : String × String :=
  (node.name, node.fit.render places)

mutual
theorem runAll_draws : (node : Node) → node.All (Runnable value) →
    Draw.runAll value (node.draws places) = (node.visited value).map (draw places)
  | mk column name fit partitions, h => by
    have hpartitions := runAll_partitionDraws name partitions h.here.finite h.here.covers
      fun partition hp branch hb child hc =>
        h.of_child (mem_children.mpr ⟨partition, hp, branch, hb, hc⟩)
    simp [draws, visited, Draw.runAll, Draw.run, hpartitions, draw, Node.name, Node.fit]
theorem runAll_partitionDraws (name : String) : (partitions : List (Partitioning Node)) →
    (value name).isFinite = true → (∀ partition ∈ partitions, partition.Covers) →
    (∀ partition ∈ partitions, ∀ branch ∈ partition.branches, ∀ child ∈ branch.nodes,
      child.All (Runnable value)) →
    Draw.runAll value (partitionDraws places name partitions) =
      (visitedPartitions value name partitions).map (draw places)
  | [], _, _, _ => rfl
  | ⟨thresholds, branches⟩ :: rest, hv, hcovers, hall => by
    obtain ⟨hfirst, hrest⟩ := List.forall_mem_cons.mp hcovers
    obtain ⟨hnodes, hothers⟩ := List.forall_mem_cons.mp hall
    have hbranches := runAll_branchDraws name branches hfirst.chain (Double.negInfinity_lt hv)
      (Double.le_of_lt (Double.lt_infinity hv)) hnodes
    simp [partitionDraws, visitedPartitions, hbranches,
      runAll_partitionDraws name rest hv hrest hothers]
/-- Tests of upper bounds alone choose by the ranges, since each range starts where the one before
it ends. -/
theorem runAll_branchDraws (name : String) {first last : Float} :
    (branches : List (Branch Node)) → Range.Chain first (branches.map (·.range)) last →
    first < value name → value name ≤ last →
    (∀ branch ∈ branches, ∀ child ∈ branch.nodes, child.All (Runnable value)) →
    Draw.runAll value (branchDraws places name branches) =
      (visitedBranch value name branches).map (draw places)
  | [], _, _, _, _ => rfl
  | [⟨range, nodes⟩], hchain, hl, hu, hall => by
    obtain ⟨hnodes, -⟩ := List.forall_mem_cons.mp hall
    rw [List.map_cons] at hchain
    cases hchain with
    | @cons _ upper _ _ _ hrest =>
      cases hrest
      have hcontains : (⟨first, last⟩ : Range).contains (value name) = true :=
        Range.contains_iff.mpr ⟨hl, hu⟩
      simp [branchDraws, visitedBranch, hcontains, runAll_nodeDraws nodes hnodes]
  | ⟨range, nodes⟩ :: next :: rest, hchain, hl, hu, hall => by
    obtain ⟨hnodes, hothers⟩ := List.forall_mem_cons.mp hall
    rw [List.map_cons] at hchain
    cases hchain with
    | @cons _ upper _ _ hlt hrest =>
      by_cases hv : value name ≤ upper
      · have hcontains : (⟨first, upper⟩ : Range).contains (value name) = true :=
          Range.contains_iff.mpr ⟨hl, hv⟩
        simp [branchDraws, visitedBranch, Draw.runAll, Draw.run, hv, hcontains,
          runAll_nodeDraws nodes hnodes]
      · have hcontains : (⟨first, upper⟩ : Range).contains (value name) = false :=
          Bool.eq_false_iff.mpr fun h => hv (Range.contains_iff.mp h).2
        have hupper := Double.lt_of_not_le (Double.lt_iff.mp hl).2.1 (Double.lt_iff.mp hlt).2.1 hv
        have hothers := runAll_branchDraws name (next :: rest) hrest hupper hu hothers
        rw [visitedBranch, if_neg (Bool.eq_false_iff.mp hcontains), ← hothers]
        simp [branchDraws, Draw.runAll, Draw.run, hv]
theorem runAll_nodeDraws : (nodes : List Node) → (∀ node ∈ nodes, node.All (Runnable value)) →
    Draw.runAll value (nodeDraws places nodes) = (visitedNodes value nodes).map (draw places)
  | [], _ => rfl
  | node :: rest, h => by
    obtain ⟨hnode, hrest⟩ := List.forall_mem_cons.mp h
    simp [nodeDraws, visitedNodes, runAll_draws node hnode, runAll_nodeDraws rest hrest]
end

end

end Node

mutual
theorem Node.All.of_mem_visited {P : Node → Prop} {value : String → Float} {found : Node} :
    (node : Node) → node.All P → found ∈ node.visited value → found.All P
  | .mk column name fit partitions, h, hmem => by
    rcases List.mem_cons.mp hmem with rfl | hmem
    · exact h
    · refine of_mem_visitedPartitions name partitions (fun partition hp branch hb child hc => ?_) hmem
      exact h.of_child (Node.mem_children.mpr ⟨partition, hp, branch, hb, hc⟩)
theorem Node.All.of_mem_visitedPartitions {P : Node → Prop} {value : String → Float} {found : Node}
    (name : String) : (partitions : List (Partitioning Node)) →
    (∀ partition ∈ partitions, ∀ branch ∈ partition.branches, ∀ child ∈ branch.nodes,
      child.All P) → found ∈ Node.visitedPartitions value name partitions → found.All P
  | ⟨_, branches⟩ :: rest, h, hmem => by
    obtain ⟨hbranches, hrest⟩ := List.forall_mem_cons.mp h
    rcases List.mem_append.mp hmem with hmem | hmem
    · exact of_mem_visitedBranch name branches hbranches hmem
    · exact of_mem_visitedPartitions name rest hrest hmem
theorem Node.All.of_mem_visitedBranch {P : Node → Prop} {value : String → Float} {found : Node}
    (name : String) : (branches : List (Branch Node)) →
    (∀ branch ∈ branches, ∀ child ∈ branch.nodes, child.All P) →
    found ∈ Node.visitedBranch value name branches → found.All P
  | ⟨range, nodes⟩ :: rest, h, hmem => by
    obtain ⟨hnodes, hrest⟩ := List.forall_mem_cons.mp h
    rw [Node.visitedBranch] at hmem
    split at hmem
    · exact of_mem_visitedNodes nodes hnodes hmem
    · exact of_mem_visitedBranch name rest hrest hmem
theorem Node.All.of_mem_visitedNodes {P : Node → Prop} {value : String → Float} {found : Node} :
    (nodes : List Node) → (∀ node ∈ nodes, node.All P) →
    found ∈ Node.visitedNodes value nodes → found.All P
  | node :: rest, h, hmem => by
    obtain ⟨hnode, hrest⟩ := List.forall_mem_cons.mp h
    rcases List.mem_append.mp hmem with hmem | hmem
    · exact of_mem_visited node hnode hmem
    · exact of_mem_visitedNodes rest hrest hmem
end

namespace PopulationModel

def visited (value : String → Float) (m : PopulationModel) : List Node :=
  Node.visitedNodes value m.roots

def bounds (m : PopulationModel) : List Float :=
  Node.nodeBounds m.roots

end PopulationModel

end FairProgram
