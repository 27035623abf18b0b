import FairProgram.Population.Tree

/-!
# Agreement of sibling branches

Sibling branches are cut down to the columns that all of them model. Dropping a node drops what is
below it, which can shrink the agreement again, so the cut is repeated until it drops nothing.
-/

namespace FairProgram

namespace Node

mutual
def count : Node → Nat
  | mk _ _ _ partitions => partitionCount partitions + 1
def partitionCount : List (Partitioning Node) → Nat
  | [] => 0
  | ⟨_, branches⟩ :: rest => branchCount branches + partitionCount rest
def branchCount : List (Branch Node) → Nat
  | [] => 0
  | ⟨_, nodes⟩ :: rest => nodesCount nodes + branchCount rest
def nodesCount : List Node → Nat
  | [] => 0
  | node :: rest => node.count + nodesCount rest
end

mutual
theorem count_restrict_le (keep : Nat → Bool) : (node : Node) →
    (node.restrict keep).count ≤ node.count
  | mk _ _ _ partitions => by
    simpa [restrict, count] using partitionCount_restrict_le keep partitions
theorem partitionCount_restrict_le (keep : Nat → Bool) : (partitions : List (Partitioning Node)) →
    partitionCount (restrictPartitions keep partitions) ≤ partitionCount partitions
  | [] => by simp [restrictPartitions]
  | ⟨_, branches⟩ :: rest => by
    have hb := branchCount_restrict_le keep branches
    have hr := partitionCount_restrict_le keep rest
    simp only [restrictPartitions]
    split <;> simp only [partitionCount] <;> omega
theorem branchCount_restrict_le (keep : Nat → Bool) : (branches : List (Branch Node)) →
    branchCount (restrictBranches keep branches) ≤ branchCount branches
  | [] => by simp [restrictBranches]
  | ⟨_, nodes⟩ :: rest => by
    have hn := nodesCount_restrict_le keep nodes
    have hr := branchCount_restrict_le keep rest
    simp only [restrictBranches, branchCount]
    omega
theorem nodesCount_restrict_le (keep : Nat → Bool) : (nodes : List Node) →
    nodesCount (restrictNodes keep nodes) ≤ nodesCount nodes
  | [] => by simp [restrictNodes]
  | node :: rest => by
    have hn := count_restrict_le keep node
    have hr := nodesCount_restrict_le keep rest
    simp only [restrictNodes]
    split <;> simp only [nodesCount] <;> omega
end

theorem count_pos (node : Node) : 0 < node.count := by
  cases node; simp [count]

mutual
/-- A node with a descendant that is not kept gets smaller. -/
theorem count_restrict_lt (keep : Nat → Bool) : (node : Node) →
    (∃ c ∈ partitionColumns node.partitions, keep c = false) →
    (node.restrict keep).count < node.count
  | mk _ _ _ partitions, h => by
    simpa [restrict, count] using partitionCount_restrict_lt keep partitions h
theorem partitionCount_restrict_lt (keep : Nat → Bool) : (partitions : List (Partitioning Node)) →
    (∃ c ∈ partitionColumns partitions, keep c = false) →
    partitionCount (restrictPartitions keep partitions) < partitionCount partitions
  | [], h => by simp [partitionColumns] at h
  | ⟨_, branches⟩ :: rest, h => by
    have hb := branchCount_restrict_le keep branches
    have hr := partitionCount_restrict_le keep rest
    obtain ⟨c, hc, hk⟩ := h
    simp only [partitionColumns, List.mem_append] at hc
    rcases hc with hc | hc
    · have hlt := branchCount_restrict_lt keep branches ⟨c, hc, hk⟩
      simp only [restrictPartitions]
      split <;> simp only [partitionCount] <;> omega
    · have hlt := partitionCount_restrict_lt keep rest ⟨c, hc, hk⟩
      simp only [restrictPartitions]
      split <;> simp only [partitionCount] <;> omega
theorem branchCount_restrict_lt (keep : Nat → Bool) : (branches : List (Branch Node)) →
    (∃ c ∈ branchColumns branches, keep c = false) →
    branchCount (restrictBranches keep branches) < branchCount branches
  | [], h => by simp [branchColumns] at h
  | ⟨_, nodes⟩ :: rest, h => by
    have hn := nodesCount_restrict_le keep nodes
    have hr := branchCount_restrict_le keep rest
    obtain ⟨c, hc, hk⟩ := h
    simp only [branchColumns, List.mem_append] at hc
    simp only [restrictBranches, branchCount]
    rcases hc with hc | hc
    · have := nodesCount_restrict_lt keep nodes ⟨c, hc, hk⟩
      omega
    · have := branchCount_restrict_lt keep rest ⟨c, hc, hk⟩
      omega
theorem nodesCount_restrict_lt (keep : Nat → Bool) : (nodes : List Node) →
    (∃ c ∈ nodeColumns nodes, keep c = false) →
    nodesCount (restrictNodes keep nodes) < nodesCount nodes
  | [], h => by simp [nodeColumns] at h
  | node :: rest, h => by
    have hn := count_restrict_le keep node
    have hr := nodesCount_restrict_le keep rest
    have hp := node.count_pos
    obtain ⟨c, hc, hk⟩ := h
    simp only [nodeColumns, List.mem_append] at hc
    simp only [restrictNodes]
    split
    · rename_i hkeep
      simp only [nodesCount]
      rcases hc with hc | hc
      · have hc' : c ∈ partitionColumns node.partitions := by
          cases node with
          | mk column name fit partitions =>
            simp only [columns, List.mem_cons] at hc
            rcases hc with rfl | hc
            · simp [column, hk] at hkeep
            · exact hc
        have := count_restrict_lt keep node ⟨c, hc', hk⟩
        omega
      · have := nodesCount_restrict_lt keep rest ⟨c, hc, hk⟩
        omega
    · simp only [nodesCount]
      omega
end

end Node

namespace Population

/-- The columns that every branch models, as a set below a bound. -/
def commonColumns (bound : Nat) : List (Branch Node) → ColumnSet
  | [] => .empty bound
  | first :: rest =>
    rest.foldl (fun shared branch => shared.inter (branch.columnSet bound)) (first.columnSet bound)

/-- The branches cut down to the greatest set of columns that all of them model, and that set. -/
def agree (bound : Nat) (branches : List (Branch Node)) : List (Branch Node) × ColumnSet :=
  let shared := commonColumns bound branches
  let kept := Node.restrictBranches shared.contains branches
  if (Node.branchColumns branches).all shared.contains then (kept, shared)
  else agree bound kept
termination_by Node.branchCount branches
decreasing_by
  rename_i h
  exact Node.branchCount_restrict_lt _ _ (by simpa using h)

end Population

end FairProgram
