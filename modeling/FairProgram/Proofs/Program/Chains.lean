import FairProgram.Proofs.Decimal.Order
import FairProgram.Proofs.Program.Population
import FairProgram.Proofs.Program.Steps
import Mathlib

/-!
# Bounds in print

Literals keep the order of the doubles they are printed for. So the bounds of every chain of tests of
a population never decrease in print, and neither do those of the buckets of a step literal, where
its edges do not (`printed_bounds_ordered`).
-/

namespace FairProgram

-- ---------------------------------------------------------------------------
-- Chains of commands
-- ---------------------------------------------------------------------------

namespace Command

variable {ν τ ν' τ' : Type} {f : ν → ν'} {g : τ → τ'}

mutual
/-- The tests of the chain that a command begins. A branch alone behind an `else` goes on with it. -/
def chain : Command ν τ → List τ
  | .assign _ _ => []
  | .branch test _ no => test :: chainOf no
def chainOf : List (Command ν τ) → List τ
  | [] => []
  | command :: rest => if rest.isEmpty then command.chain else []
end

mutual
/-- The chains of a command and of all commands within it, from each of their tests on. -/
def chains : Command ν τ → List (List τ)
  | .assign _ _ => []
  | .branch test yes no => (test :: chainOf no) :: (chainsAll yes ++ chainsAll no)
def chainsAll : List (Command ν τ) → List (List τ)
  | [] => []
  | command :: rest => command.chains ++ chainsAll rest
end

theorem chainsAll_append (commands others : List (Command ν τ)) :
    chainsAll (commands ++ others) = chainsAll commands ++ chainsAll others := by
  induction commands with
  | nil => rfl
  | cons command rest ih => rw [List.cons_append, chainsAll, ih, chainsAll, List.append_assoc]

mutual
theorem chain_map : (command : Command ν τ) → (command.map f g).chain = command.chain.map g
  | .assign _ _ => rfl
  | .branch test _ no => by rw [map, chain, chain, chainOf_mapAll no, List.map_cons]
theorem chainOf_mapAll : (commands : List (Command ν τ)) →
    chainOf (mapAll f g commands) = (chainOf commands).map g
  | [] => rfl
  | [command] => chain_map command
  | _ :: _ :: _ => rfl
end

mutual
theorem chains_map : (command : Command ν τ) →
    (command.map f g).chains = command.chains.map (List.map g)
  | .assign _ _ => rfl
  | .branch test yes no => by
    rw [map, chains, chains, chainOf_mapAll, chainsAll_mapAll yes, chainsAll_mapAll no,
      List.map_cons, List.map_cons, List.map_append]
theorem chainsAll_mapAll : (commands : List (Command ν τ)) →
    chainsAll (mapAll f g commands) = (chainsAll commands).map (List.map g)
  | [] => rfl
  | command :: rest => by
    rw [mapAll, chainsAll, chainsAll, chains_map command, chainsAll_mapAll rest, List.map_append]
end

end Command

-- ---------------------------------------------------------------------------
-- Ascending bounds
-- ---------------------------------------------------------------------------

/-- Finite doubles that never decrease. -/
structure Steady (bounds : List Float) : Prop where
  finite : ∀ bound ∈ bounds, bound.isFinite = true
  ordered : bounds.Pairwise (· ≤ ·)

/-- Texts of numbers that never decrease. -/
def Ascending (texts : List String) : Prop :=
  ∃ numbers : List ℚ, texts.map (fun text => Token.numeral? text.toList) = numbers.map some ∧
    numbers.Pairwise (· ≤ ·)

theorem Steady.of_cons {bound : Float} {bounds : List Float} (h : Steady (bound :: bounds)) :
    Steady bounds :=
  ⟨(List.forall_mem_cons.mp h.finite).2, (List.pairwise_cons.mp h.ordered).2⟩

theorem Steady.ascending {bounds : List Float} (h : Steady bounds) (places : Nat) :
    Ascending (bounds.map (Decimal.literal · places)) := by
  refine ⟨bounds.map (Decimal.fixedValue · places), ?_, List.pairwise_map.mpr ?_⟩
  · rw [List.map_map, List.map_map]
    exact List.map_congr_left fun bound hb => Token.numeral?_literal (h.finite bound hb) places
  · refine h.ordered.imp_of_mem fun {v w} hv hw hle => ?_
    exact Decimal.fixedValue_mono (h.finite v hv) (h.finite w hw) hle places

/-- The upper bounds of all branches but the last. -/
def Node.testedBounds (branches : List (Branch Node)) : List Float :=
  branches.dropLast.map (·.range.upper)

theorem Partitioning.Covers.steady {partition : Partitioning Node} (h : partition.Covers) :
    Steady (Node.testedBounds partition.branches) := by
  have hbounds : Node.testedBounds partition.branches = partition.thresholds := by
    rw [h.thresholds_eq, ← List.map_dropLast, List.map_map]
    rfl
  obtain ⟨hfirst, hrest⟩ := List.pairwise_cons.mp h.increasing
  obtain ⟨hordered, -, hlast⟩ := List.pairwise_append.mp hrest
  rw [hbounds]
  refine ⟨fun bound hb => ?_, hordered.imp Double.le_of_lt⟩
  exact Double.isFinite_of_lt_infinity (hfirst bound (List.mem_append_left _ hb))
    (hlast bound hb _ List.mem_cons_self)

-- ---------------------------------------------------------------------------
-- Chains that are read
-- ---------------------------------------------------------------------------

namespace Node

section
variable {places : Nat}

theorem chainOf_nodeDraws : (nodes : List Node) → Command.chainOf (nodeDraws places nodes) = []
  | [] => rfl
  | mk column name fit partitions :: rest => by
    rw [nodeDraws, draws, List.cons_append, Command.chainOf, Command.chain, ite_self]

theorem chainOf_branchDraws (name : String) (branches : List (Branch Node)) :
    Command.chainOf (branchDraws places name branches) = (testedBounds branches).map (name, ·) := by
  induction branches with
  | nil => rfl
  | cons branch rest ih =>
    cases rest with
    | nil => exact chainOf_nodeDraws branch.nodes
    | cons next rest =>
      rw [branchDraws, Command.chainOf, List.isEmpty_nil, if_pos rfl, Command.chain, ih]
      rfl

/-- Chains of tests whose bounds are finite and never decrease. -/
def SteadyChains (draws : List Draw) : Prop :=
  ∀ chain ∈ Command.chainsAll draws, Steady (chain.map (·.2))

theorem SteadyChains.append {draws others : List Draw} (h : SteadyChains draws)
    (h' : SteadyChains others) : SteadyChains (draws ++ others) := by
  rw [SteadyChains, Command.chainsAll_append]
  exact List.forall_mem_append.mpr ⟨h, h'⟩

theorem SteadyChains.nil : SteadyChains [] :=
  List.forall_mem_nil _

theorem SteadyChains.assign (name fit : String) : SteadyChains [.assign name fit] :=
  List.forall_mem_nil _

theorem SteadyChains.branch {name : String} {bound : Float} {yes no : List Draw}
    (hyes : SteadyChains yes) (hno : SteadyChains no)
    (h : Steady (bound :: (Command.chainOf no).map (·.2))) :
    SteadyChains [.branch (name, bound) yes no] := by
  rw [SteadyChains, Command.chainsAll, Command.chainsAll, List.append_nil, Command.chains]
  exact List.forall_mem_cons.mpr ⟨h, List.forall_mem_append.mpr ⟨hyes, hno⟩⟩

/-- The partitions of a node cover the line. -/
def Covered (node : Node) : Prop :=
  ∀ partition ∈ node.partitions, partition.Covers

mutual
theorem steadyChains_draws : (node : Node) → node.All Covered → SteadyChains (node.draws places)
  | mk _ name fit partitions, h =>
    (SteadyChains.assign name (fit.render places)).append
      (steadyChains_partitionDraws name partitions h.here fun partition hp branch hb _ hc =>
        h.of_child (mem_children.mpr ⟨partition, hp, branch, hb, hc⟩))
theorem steadyChains_partitionDraws (name : String) : (partitions : List (Partitioning Node)) →
    (∀ partition ∈ partitions, partition.Covers) →
    (∀ partition ∈ partitions, ∀ branch ∈ partition.branches, ∀ child ∈ branch.nodes,
      child.All Covered) → SteadyChains (partitionDraws places name partitions)
  | [], _, _ => .nil
  | ⟨_, branches⟩ :: rest, hcovers, hall => by
    obtain ⟨hfirst, hrest⟩ := List.forall_mem_cons.mp hcovers
    obtain ⟨hnodes, hothers⟩ := List.forall_mem_cons.mp hall
    exact (steadyChains_branchDraws name branches hfirst.steady hnodes).append
      (steadyChains_partitionDraws name rest hrest hothers)
/-- The chain of a partition has the bounds of its branches from one on. -/
theorem steadyChains_branchDraws (name : String) : (branches : List (Branch Node)) →
    Steady (testedBounds branches) →
    (∀ branch ∈ branches, ∀ child ∈ branch.nodes, child.All Covered) →
    SteadyChains (branchDraws places name branches)
  | [], _, _ => .nil
  | [⟨_, nodes⟩], _, hall => steadyChains_nodeDraws nodes (List.forall_mem_cons.mp hall).1
  | ⟨range, nodes⟩ :: next :: rest, h, hall => by
    obtain ⟨hnodes, hothers⟩ := List.forall_mem_cons.mp hall
    have hchain : (Command.chainOf (branchDraws places name (next :: rest))).map (·.2) =
        testedBounds (next :: rest) := by
      rw [chainOf_branchDraws, List.map_map]
      exact List.map_id _
    refine .branch (steadyChains_nodeDraws nodes hnodes)
      (steadyChains_branchDraws name (next :: rest) h.of_cons hothers) ?_
    rw [hchain]
    exact h
theorem steadyChains_nodeDraws : (nodes : List Node) → (∀ node ∈ nodes, node.All Covered) →
    SteadyChains (nodeDraws places nodes)
  | [], _ => .nil
  | node :: rest, h => by
    obtain ⟨hnode, hrest⟩ := List.forall_mem_cons.mp h
    exact (steadyChains_draws node hnode).append (steadyChains_nodeDraws rest hrest)
end

end

-- ---------------------------------------------------------------------------
-- Chains in the text
-- ---------------------------------------------------------------------------

/-- The lines that open the branches of a chain: a test against each bound, and the rest. -/
def chainHeads (indent : Nat) (name : String) (isFirst : Bool) : List String → List Line
  | [] => [⟨indent, "else:"⟩]
  | bound :: rest =>
    ⟨indent, (if isFirst then "if " else "elif ") ++ name ++ " <= " ++ bound ++ ":"⟩ ::
      chainHeads indent name false rest

section
variable {places indent : Nat} {line : Line}

mutual
theorem le_indent_lines {indent : Nat} : (node : Node) → line ∈ node.lines places indent → indent ≤ line.indent
  | mk column name fit partitions, h => by
    obtain rfl | h := List.mem_cons.mp h
    · exact Nat.le_refl _
    · exact le_indent_partitionLines name partitions h
theorem le_indent_partitionLines {indent : Nat} (name : String) : (partitions : List (Partitioning Node)) →
    line ∈ partitionLines places indent name partitions → indent ≤ line.indent
  | ⟨_, branches⟩ :: rest, h => by
    obtain h | h := List.mem_append.mp h
    · exact le_indent_branchLines name true branches h
    · exact le_indent_partitionLines name rest h
theorem le_indent_branchLines {indent : Nat} (name : String) (isFirst : Bool) :
    (branches : List (Branch Node)) →
    line ∈ branchLines places indent name isFirst branches → indent ≤ line.indent
  | ⟨range, nodes⟩ :: rest, h => by
    obtain rfl | h := List.mem_cons.mp h
    · exact Nat.le_refl _
    · obtain h | h := List.mem_append.mp h
      · exact Nat.le_of_succ_le (le_indent_nodeLines nodes h)
      · exact le_indent_branchLines name false rest h
theorem le_indent_nodeLines {indent : Nat} : (nodes : List Node) →
    line ∈ nodeLines places indent nodes → indent ≤ line.indent
  | node :: rest, h => by
    obtain h | h := List.mem_append.mp h
    · exact le_indent_lines node h
    · exact le_indent_nodeLines rest h
end

/-- What stands between the heads of a chain is deeper. -/
theorem filter_branchLines (name : String) (isFirst : Bool) : (branches : List (Branch Node)) →
    branches ≠ [] → (branchLines places indent name isFirst branches).filter (·.indent == indent) =
      chainHeads indent name isFirst ((testedBounds branches).map (Decimal.literal · places))
  | ⟨range, nodes⟩ :: rest, _ => by
    have hnodes : (nodeLines places (indent + 1) nodes).filter (·.indent == indent) = [] := by
      refine List.filter_eq_nil_iff.mpr fun line hline => ?_
      have := le_indent_nodeLines nodes hline
      simp only [beq_iff_eq]
      omega
    simp only [branchLines, List.filter_cons, beq_self_eq_true, if_true, List.filter_append, hnodes,
      List.nil_append]
    cases rest with
    | nil => rfl
    | cons next rest =>
      rw [filter_branchLines name false (next :: rest) (List.cons_ne_nil _ _)]
      rfl

theorem lines_infix_nodeLines {node : Node} : {nodes : List Node} → node ∈ nodes →
    node.lines places indent <:+: nodeLines places indent nodes
  | first :: rest, h => by
    obtain rfl | h := List.mem_cons.mp h
    · exact (List.prefix_append _ _).isInfix
    · exact (lines_infix_nodeLines h).trans (List.suffix_append _ _).isInfix

theorem nodeLines_infix_branchLines {name : String} {branch : Branch Node} :
    {isFirst : Bool} → {branches : List (Branch Node)} → branch ∈ branches →
    nodeLines places (indent + 1) branch.nodes <:+: branchLines places indent name isFirst branches
  | _, ⟨range, nodes⟩ :: rest, h => by
    refine List.IsInfix.trans ?_ (List.suffix_cons _ _).isInfix
    obtain rfl | h := List.mem_cons.mp h
    · exact (List.prefix_append _ _).isInfix
    · exact (nodeLines_infix_branchLines h).trans (List.suffix_append _ _).isInfix

theorem branchLines_infix_partitionLines {name : String} {partition : Partitioning Node} :
    {partitions : List (Partitioning Node)} → partition ∈ partitions →
    branchLines places indent name true partition.branches <:+:
      partitionLines places indent name partitions
  | ⟨_, branches⟩ :: rest, h => by
    obtain rfl | h := List.mem_cons.mp h
    · exact (List.prefix_append _ _).isInfix
    · exact (branchLines_infix_partitionLines h).trans (List.suffix_append _ _).isInfix

theorem branchLines_infix_lines {node : Node} {partition : Partitioning Node}
    (h : partition ∈ node.partitions) :
    branchLines places indent node.name true partition.branches <:+: node.lines places indent := by
  cases node with
  | mk column name fit partitions =>
    exact (branchLines_infix_partitionLines h).trans (List.suffix_cons _ _).isInfix

end

end Node

theorem PopulationModel.Reaches.lines_infix {m : PopulationModel} {path : List (Nat × Range)}
    {node : Node} (h : m.Reaches path node) (places : Nat) :
    node.lines places (path.length + 1) <:+: Node.nodeLines places 1 m.roots := by
  induction h with
  | root hroot => exact Node.lines_infix_nodeLines hroot
  | @branch path node child partition branch _ hp hb hc ih =>
    rw [List.length_append, List.length_singleton]
    exact (((Node.lines_infix_nodeLines hc).trans (Node.nodeLines_infix_branchLines hb)).trans
      (Node.branchLines_infix_lines hp)).trans ih

-- ---------------------------------------------------------------------------
-- Compiled models and step literals
-- ---------------------------------------------------------------------------

namespace Population

section
variable {p : Params} {d : Dataset} {m : PopulationModel} {path : List (Nat × Range)} {node : Node}
  {partition : Partitioning Node}

/-- The lines of a partition stand in a row in the block, and those that open its branches name
bounds that never decrease. -/
theorem printed_chain (h : compile p d = .ok m) (hr : m.Reaches path node)
    (hp : partition ∈ node.partitions) (sensitive qualified : List Predicate) :
    Node.branchLines p.decimalPlaces (path.length + 1) node.name true partition.branches <:+:
      (Block.population p m sensitive qualified).body ∧
    ∃ bounds, Ascending bounds ∧
      (Node.branchLines p.decimalPlaces (path.length + 1) node.name true partition.branches).filter
        (·.indent == path.length + 1) =
          Node.chainHeads (path.length + 1) node.name true bounds := by
  have hcovers := (hr.all (compile_shaped h).shaped).here.covers partition hp
  have hne : partition.branches ≠ [] := by
    have hlength := hcovers.length_branches
    exact List.ne_nil_of_length_eq_add_one hlength
  have hlines := (Node.branchLines_infix_lines hp).trans (hr.lines_infix p.decimalPlaces)
  rw [Block.population, List.append_assoc]
  exact ⟨hlines.trans (List.prefix_append _ _).isInfix, _, hcovers.steady.ascending _,
    Node.filter_branchLines node.name true partition.branches hne⟩

/-- Where names can be read, all chains that the text of the block reads as have bounds that never
decrease. -/
theorem read_chains (h : compile p d = .ok m)
    (hn : ∀ name ∈ d.names, Script.isName name.toList = true)
    (sensitive qualified : List Predicate) :
    ∃ program, Script.read? Script.fit? Script.bound? "popModel"
        (Block.population p m sensitive qualified).text = some program ∧
      ∀ chain ∈ Command.chainsAll program, Ascending (chain.map (·.2)) := by
  have hshaped := (compile_shaped h).shaped
  have hlegible : ∀ root ∈ m.roots, root.All Node.Legible := fun root hroot =>
    ((hshaped root hroot).and ((Node.kept_named d).all_compile h root hroot)).imp
      fun node ⟨hs, hnode⟩ => ⟨hn node.name (List.mem_of_getElem? hnode),
        fun partition hp => (hs.partitions partition hp).several,
        fun partition hp => Partitioning.filled_iff.mp (hs.partitions partition hp).filled⟩
  have hsteady : Node.SteadyChains (Node.nodeDraws p.decimalPlaces m.roots) :=
    Node.steadyChains_nodeDraws m.roots fun root hroot =>
      (hshaped root hroot).imp fun _ hs => hs.covers
  refine ⟨Draw.printed p.decimalPlaces (Node.nodeDraws p.decimalPlaces m.roots), ?_, ?_⟩
  · rw [Block.population, List.append_assoc]
    refine Script.read?_block (by decide) (Node.denotes_nodeLines 1 m.roots hlegible) ?_
    refine List.forall_mem_append.mpr ⟨?_, ?_⟩ <;> refine List.forall_mem_map.mpr fun predicate _ => ?_
    · exact Script.isDeclaration_declaration (by decide) _ predicate
    · exact Script.isDeclaration_declaration (by decide) _ predicate
  · rw [Draw.printed, Command.chainsAll_mapAll]
    refine List.forall_mem_map.mpr fun chain hchain => ?_
    have hascending := (hsteady chain hchain).ascending p.decimalPlaces
    rw [List.map_map] at hascending ⊢
    exact hascending

end

end Population

theorem StepFit.printed_contiguous (s : StepFit) (places : Nat) :
    (s.printed places).IsChain (fun a b => a.upper = b.lower) ∧
    (s.edges.Pairwise (· ≤ ·) →
      ∀ b ∈ s.printed places, Decimal.NotAbove b.lower b.upper) := by
  refine ⟨Stats.Bucket.isChain_ofEdges _ _, fun h b hb => Stats.Bucket.rel_of_pairwise ?_ hb⟩
  exact List.pairwise_map.mpr (h.imp fun hle => Decimal.NotAbove.of_le hle places)

/-- The literal of a finite double denotes a number at most half a unit of its last place away from
it. Literals keep the order of their doubles, and lose the sign where they denote zero. So in the
chains of a population the bounds never decrease, and the buckets of a step literal lie side by side,
with bounds that never decrease if the edges do not. -/
theorem printed_bounds_ordered :
    (∀ (places : Nat) (v w : Float), v.isFinite = true → w.isFinite = true → v ≤ w → ∃ a b : ℚ,
      Token.numeral? (Decimal.literal v places).toList = some a ∧
      Token.numeral? (Decimal.literal w places).toList = some b ∧
      |a - Double.value v| ≤ 1 / 2 / 10 ^ places ∧ a ≤ b) ∧
    (∀ (places : Nat) (v : Float), v.isFinite = true →
      (Decimal.literal v places).toList =
        Decimal.dropZeroSign (Decimal.signedLiteral v places) ∧
      ((Decimal.literal v places).toList.head? = some '-' →
        ∃ a < 0, Token.numeral? (Decimal.literal v places).toList = some a)) ∧
    (∀ p d m, Population.compile p d = .ok m → ∀ sensitive qualified,
      (∀ path node, m.Reaches path node → ∀ partition ∈ node.partitions,
        Node.branchLines p.decimalPlaces (path.length + 1) node.name true partition.branches <:+:
          (Block.population p m sensitive qualified).body ∧
        ∃ bounds, Ascending bounds ∧
          (Node.branchLines p.decimalPlaces (path.length + 1) node.name true
            partition.branches).filter (·.indent == path.length + 1) =
              Node.chainHeads (path.length + 1) node.name true bounds) ∧
      ((∀ name ∈ d.names, Script.isName name.toList = true) →
        ∃ program, Script.read? Script.fit? Script.bound? "popModel"
            (Block.population p m sensitive qualified).text = some program ∧
          ∀ chain ∈ Command.chainsAll program, Ascending (chain.map (·.2)))) ∧
    ∀ (places : Nat) (s : StepFit), ∃ buckets,
      StepFit.readBuckets? ((Fit.step s).render places).toList = some buckets ∧
      buckets.length = s.units.length ∧
      buckets.IsChain (fun a b => a.upper = b.lower) ∧
      (s.edges.Pairwise (· ≤ ·) → ∀ b ∈ buckets, Decimal.NotAbove b.lower b.upper) := by
  refine ⟨fun places v w hv hw hle => ?_, fun places v hv => ?_,
    fun p d m h sensitive qualified => ⟨fun path node hr partition hp => ?_, fun hn => ?_⟩,
    fun places s => ?_⟩
  · exact ⟨_, _, Token.numeral?_literal hv places, Token.numeral?_literal hw places,
      Decimal.abs_fixedValue_sub_le hv places, Decimal.fixedValue_mono hv hw hle places⟩
  · exact ⟨Decimal.toList_literal hv places, fun hsign =>
      ⟨_, Decimal.fixedValue_neg hv hsign, Token.numeral?_literal hv places⟩⟩
  · exact Population.printed_chain h hr hp sensitive qualified
  · exact Population.read_chains h hn sensitive qualified
  · have hlength := congrArg List.length (s.map_mass_printed places)
    rw [List.length_map, List.length_map] at hlength
    exact ⟨s.printed places, StepFit.readBuckets?_render s places, hlength,
      s.printed_contiguous places⟩

def acrossZero : StepFit where
  edges := [-0.04, 0, 2]
  units := [1, 9]
  places := 1
  units_ne_nil := List.cons_ne_nil _ _
  length_edges := rfl

open Population in
/-- Two literals, the chain of the only partition of the fork, the chains that its text reads as, and
a step literal. -/
theorem printed_bounds_ordered_apart :
    (∃ a b : ℚ, Token.numeral? (Decimal.literal (-0.04) 1).toList = some a ∧
      Token.numeral? (Decimal.literal 0.25 1).toList = some b ∧
      |a - Double.value (-0.04)| ≤ 1 / 2 / 10 ^ 1 ∧ a ≤ b) ∧
    (∃ m root partition, compile Partition.oneCut apart = .ok m ∧ m.roots = [root] ∧
      IsFork root ∧ root.partitions = [partition] ∧
      Node.branchLines Partition.oneCut.decimalPlaces 1 root.name true partition.branches <:+:
        (Block.population Partition.oneCut m [] []).body ∧
      (∃ bounds, Ascending bounds ∧
        (Node.branchLines Partition.oneCut.decimalPlaces 1 root.name true
          partition.branches).filter (·.indent == 1) =
            Node.chainHeads 1 root.name true bounds) ∧
      ∃ program, Script.read? Script.fit? Script.bound? "popModel"
          (Block.population Partition.oneCut m [] []).text = some program ∧
        ∀ chain ∈ Command.chainsAll program, Ascending (chain.map (·.2))) ∧
    ∃ buckets, StepFit.readBuckets? ((Fit.step acrossZero).render 1).toList =
        some buckets ∧
      buckets.length = 2 ∧ buckets.IsChain (fun a b => a.upper = b.lower) ∧
      ∀ b ∈ buckets, Decimal.NotAbove b.lower b.upper := by
  obtain ⟨hliterals, -, hchains, hsteps⟩ := printed_bounds_ordered
  obtain ⟨m, root, h, hroots, hfork⟩ := exists_compile_apart
  obtain ⟨partition, hpartitions, -⟩ := List.map_eq_singleton_iff.mp hfork.partitions
  obtain ⟨hprinted, hread⟩ := hchains _ _ m h [] []
  have hroot : m.Reaches [] root := .root (hroots ▸ List.mem_singleton_self root)
  obtain ⟨hlines, hbounds⟩ :=
    hprinted [] root hroot partition (hpartitions ▸ List.mem_singleton_self partition)
  obtain ⟨buckets, hbuckets, hlength, hcontiguous, hordered⟩ :=
    hsteps 1 acrossZero
  exact ⟨hliterals 1 (-0.04) 0.25 (by decide +kernel) (by decide +kernel) (by decide +kernel),
    ⟨m, root, partition, h, hroots, hfork, hpartitions, hlines, hbounds, hread (by decide)⟩,
    buckets, hbuckets, hlength, hcontiguous, hordered (by decide +kernel)⟩

end FairProgram
