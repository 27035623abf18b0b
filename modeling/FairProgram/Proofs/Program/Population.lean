import FairProgram.Proofs.Decimal.Literal
import FairProgram.Proofs.Program.Draws

/-!
# The program of a population model

The text of a population block reads as draws of columns and as tests of columns against bounds.
Run on any finite values of the columns, these draw what a walk of the model's tree visits: all
roots, and of each partition the nodes of the one branch whose range contains the value of its column
(`read_population`).
-/

namespace FairProgram

-- ---------------------------------------------------------------------------
-- Texts
-- ---------------------------------------------------------------------------

theorem Decimal.feed_not_mem_literal (x : Float) (places : Nat) :
    '\n' ∉ (literal x places).toList := fun h => by
  have h := mem_literal h
  revert h
  decide

theorem Decimal.feed_not_mem_unitsText (units places : Nat) :
    '\n' ∉ (unitsText units places).toList := fun h => by
  have h := mem_unitsText h
  revert h
  decide

theorem not_mem_intercalate {c : Char} {separator : List Char} (hs : c ∉ separator) :
    (texts : List (List Char)) → (∀ text ∈ texts, c ∉ text) → c ∉ separator.intercalate texts
  | [], _ => by simp [List.intercalate_nil]
  | [text], h => by simpa [List.intercalate_singleton] using h
  | text :: next :: rest, h => by
    obtain ⟨htext, hrest⟩ := List.forall_mem_cons.mp h
    have hrest := not_mem_intercalate hs (next :: rest) hrest
    simp [List.intercalate_cons_cons, htext, hs, hrest]

theorem StepFit.not_mem_bucketTexts {c : Char} {places fitPlaces : Nat} (hc : c ∉ "(, )".toList)
    (hunits : ∀ units, c ∉ (Decimal.unitsText units fitPlaces).toList) :
    (edges : List Float) → (units : List Nat) →
    (∀ edge ∈ edges, c ∉ (Decimal.literal edge places).toList) →
    ∀ text ∈ bucketTexts places fitPlaces edges units, c ∉ text.toList
  | lower :: upper :: edges, unit :: units, h => by
    obtain ⟨hlower, hupper, -⟩ := by simpa only [List.forall_mem_cons] using h
    have hrest := not_mem_bucketTexts hc hunits (upper :: edges) units fun edge hedge =>
      h edge (List.mem_cons_of_mem _ hedge)
    refine List.forall_mem_cons.mpr ⟨?_, hrest⟩
    simp [bucketText, hlower, hupper, hunits] at hc ⊢
    exact ⟨hc.1, hc.2.1, hc.2.2.1, hc.2.1, hc.2.2.1, hc.2.2.2⟩
  | [], _, _ | [_], _, _ | _ :: _ :: _, [], _ => by simp [bucketTexts]

/-- The doubles that a fit prints. -/
def Fit.numbers : Fit → List Float
  | .gaussian mean deviation => [mean, deviation]
  | .step s => s.edges

/-- A character of a fit is one of its words and marks, of its units or of a literal. -/
theorem Fit.not_mem_render {c : Char} {fit : Fit} {places : Nat}
    (hc : c ∉ "gaussian step([, ])".toList)
    (hunits : ∀ units fitPlaces, c ∉ (Decimal.unitsText units fitPlaces).toList)
    (h : ∀ x ∈ fit.numbers, c ∉ (Decimal.literal x places).toList) :
    c ∉ (fit.render places).toList := by
  cases fit with
  | gaussian mean deviation =>
    obtain ⟨hmean, hdeviation⟩ : c ∉ (Decimal.literal mean places).toList ∧
      c ∉ (Decimal.literal deviation places).toList := by simpa [numbers] using h
    simp [render, kind, hmean, hdeviation] at hc ⊢
    tauto
  | step s =>
    have hmarks : c ∉ "(, )".toList := by
      simp at hc ⊢
      tauto
    have htexts := StepFit.not_mem_bucketTexts hmarks (hunits · s.places) s.edges s.units h
    have hbuckets : c ∉ ", ".toList.intercalate
        ((StepFit.bucketTexts places s.places s.edges s.units).map String.toList) :=
      not_mem_intercalate (by simp at hc ⊢; tauto) _ (List.forall_mem_map.mpr htexts)
    simp [render, kind, String.toList_intercalate] at hc hbuckets ⊢
    tauto

theorem Fit.render_ok (fit : Fit) (places : Nat) :
    '\n' ∉ (fit.render places).toList ∧ (fit.render places).toList.getLast? ≠ some ':' := by
  refine ⟨not_mem_render (by simp) Decimal.feed_not_mem_unitsText fun x _ =>
    Decimal.feed_not_mem_literal x places, ?_⟩
  cases fit with
  | gaussian mean deviation => simp [render, kind, List.getLast?_cons, List.getLast?_append]
  | step s => simp [render, kind, List.getLast?_cons, List.getLast?_append]

-- ---------------------------------------------------------------------------
-- Reading the lines of a tree
-- ---------------------------------------------------------------------------

namespace Script

/-- A distribution is known by its text. -/
def fit? (text : List Char) : Option String :=
  some (String.ofList text)

/-- A name that is at most a bound, which is known by its text. -/
def bound? (text : List Char) : Option (String × String) :=
  let name := text.takeWhile isNameChar
  match text.dropWhile isNameChar with
  | ' ' :: '<' :: '=' :: ' ' :: bound =>
    if isName name then some (String.ofList name, String.ofList bound) else none
  | _ => none

theorem bound?_text {name : String} (hn : isName name.toList = true) (bound : String) :
    bound? (name ++ " <= " ++ bound).toList = some (name, bound) := by
  have hchars := isNameChar_of_isName hn
  have hblank : isNameChar ' ' = false := rfl
  have htext : (name ++ " <= " ++ bound).toList =
      name.toList ++ ' ' :: '<' :: '=' :: ' ' :: bound.toList := by
    simp
  rw [htext, bound?, List.takeWhile_append_of_pos hchars, List.dropWhile_append_of_pos hchars]
  simp [hblank, hn]

end Script

/-- Draws as they are printed, each bound as its literal. -/
def Draw.printed (places : Nat) : List Draw → List (Command String (String × String)) :=
  Command.mapAll id fun (name, bound) => (name, Decimal.literal bound places)

@[simp] theorem Draw.printed_append (places : Nat) (draws others : List Draw) :
    printed places (draws ++ others) = printed places draws ++ printed places others :=
  Command.mapAll_append

@[simp] theorem Draw.printed_branch (places : Nat) (name : String) (bound : Float)
    (yes no : List Draw) : printed places [.branch (name, bound) yes no] =
      [.branch (name, Decimal.literal bound places) (printed places yes) (printed places no)] :=
  rfl

namespace Node

/-- A name that can be read, and partitions with several branches, none of them empty. -/
structure Legible (node : Node) : Prop where
  name : Script.isName node.name.toList = true
  several : ∀ partition ∈ node.partitions, 1 < partition.branches.length
  filled : ∀ partition ∈ node.partitions, ∀ branch ∈ partition.branches, branch.nodes ≠ []

section
variable {places : Nat}

theorem printed_nodeDraws_ne_nil {nodes : List Node} (h : nodes ≠ []) :
    Draw.printed places (nodeDraws places nodes) ≠ [] := by
  cases nodes with
  | nil => exact absurd rfl h
  | cons node rest => cases node; simp [Draw.printed, nodeDraws, draws]

mutual
theorem denotes_lines (depth : Nat) : (node : Node) → node.All Legible →
    Script.Denotes Script.fit? Script.bound? depth (node.lines places depth) []
      (Draw.printed places (node.draws places))
  | mk column name fit partitions, h => by
    obtain ⟨hfeed, hcolon⟩ := fit.render_ok places
    have hassign : Script.Denotes Script.fit? Script.bound? depth
        [⟨depth, name ++ " = " ++ fit.render places⟩] [] [.assign name (fit.render places)] :=
      .assign h.here.name (by simp [Script.fit?]) hfeed hcolon
    exact hassign.append (denotes_partitionLines depth h.here.name partitions h.here.several
      h.here.filled fun partition hp branch hb child hc =>
        h.of_child (mem_children.mpr ⟨partition, hp, branch, hb, hc⟩))
theorem denotes_partitionLines (depth : Nat) {name : String}
    (hn : Script.isName name.toList = true) : (partitions : List (Partitioning Node)) →
    (∀ partition ∈ partitions, 1 < partition.branches.length) →
    (∀ partition ∈ partitions, ∀ branch ∈ partition.branches, branch.nodes ≠ []) →
    (∀ partition ∈ partitions, ∀ branch ∈ partition.branches, ∀ child ∈ branch.nodes,
      child.All Legible) →
    Script.Denotes Script.fit? Script.bound? depth (partitionLines places depth name partitions) []
      (Draw.printed places (partitionDraws places name partitions))
  | [], _, _, _ => .nil
  | ⟨_, branches⟩ :: rest, hs, hf, hall => by
    obtain ⟨hs, hs'⟩ := List.forall_mem_cons.mp hs
    obtain ⟨hf, hf'⟩ := List.forall_mem_cons.mp hf
    obtain ⟨hall, hall'⟩ := List.forall_mem_cons.mp hall
    have hne : branches ≠ [] := List.ne_nil_of_length_pos (Nat.zero_lt_of_lt hs)
    have hbranches := denotes_branchLines depth hn true branches hne (fun _ => hs) hf hall
    have hrest := denotes_partitionLines depth hn rest hs' hf' hall'
    simpa [partitionLines, partitionDraws] using hbranches.append hrest
/-- The lines of branches from one on: the first branch begins a chain that the others go on. -/
theorem denotes_branchLines (depth : Nat) {name : String}
    (hn : Script.isName name.toList = true) (isFirst : Bool) : (branches : List (Branch Node)) →
    branches ≠ [] → (isFirst = true → 1 < branches.length) →
    (∀ branch ∈ branches, branch.nodes ≠ []) →
    (∀ branch ∈ branches, ∀ child ∈ branch.nodes, child.All Legible) →
    Script.Denotes Script.fit? Script.bound? depth (branchLines places depth name isFirst branches)
      (if isFirst then [] else Draw.printed places (branchDraws places name branches))
      (if isFirst then Draw.printed places (branchDraws places name branches) else [])
  | [⟨range, nodes⟩], _, hs, hf, hall => by
    obtain ⟨hf, -⟩ := List.forall_mem_cons.mp hf
    obtain ⟨hall, -⟩ := List.forall_mem_cons.mp hall
    have hnodes := denotes_nodeLines (depth + 1) nodes hall
    cases isFirst with
    | true => exact absurd (hs rfl) (by simp)
    | false =>
      simpa [branchLines, branchHead, branchDraws] using
        Script.Denotes.otherwise hnodes (printed_nodeDraws_ne_nil hf)
  | ⟨range, nodes⟩ :: next :: rest, _, _, hf, hall => by
    obtain ⟨hf, hf'⟩ := List.forall_mem_cons.mp hf
    obtain ⟨hall, hall'⟩ := List.forall_mem_cons.mp hall
    have hnodes := denotes_nodeLines (depth + 1) nodes hall
    have hrest := denotes_branchLines depth hn false (next :: rest) (List.cons_ne_nil _ _) nofun hf' hall'
    have htest := Script.bound?_text hn (Decimal.literal range.upper places)
    have hname := Script.feed_not_mem_of_isName hn
    have hfeed : '\n' ∉ (name ++ " <= " ++ Decimal.literal range.upper places).toList := by
      simp [hname, Decimal.feed_not_mem_literal]
    cases isFirst with
    | true =>
      have hchain := Script.Denotes.test htest hfeed hnodes (printed_nodeDraws_ne_nil hf) hrest
      simpa [branchLines, branchHead, branchDraws, String.append_assoc] using hchain
    | false =>
      have hchain := Script.Denotes.retest htest hfeed hnodes (printed_nodeDraws_ne_nil hf) hrest
      simpa [branchLines, branchHead, branchDraws, String.append_assoc] using hchain
theorem denotes_nodeLines (depth : Nat) : (nodes : List Node) →
    (∀ node ∈ nodes, node.All Legible) →
    Script.Denotes Script.fit? Script.bound? depth (nodeLines places depth nodes) []
      (Draw.printed places (nodeDraws places nodes))
  | [], _ => .nil
  | node :: rest, h => by
    obtain ⟨hnode, hrest⟩ := List.forall_mem_cons.mp h
    simpa [nodeLines, nodeDraws] using
      (denotes_lines depth node hnode).append (denotes_nodeLines depth rest hrest)
end

end

end Node

-- ---------------------------------------------------------------------------
-- Compiled models
-- ---------------------------------------------------------------------------

/-- A node bears the name of its column. -/
def Node.Named (d : Dataset) (node : Node) : Prop :=
  d.names[node.column]? = some node.name

theorem Node.kept_named (d : Dataset) : Node.Kept d (Node.Named d) where
  leaf _ h := by simp [Named, Dataset.names, leaf, column, name, h]
  restrict {node} _ h := by
    cases node
    exact h
  addBranches {node} _ _ h := by
    cases node
    exact h

namespace Population

section
variable {p : Params} {d : Dataset} {m : PopulationModel}

/-- The text of a population block reads as draws and tests of columns. Its bounds are those of the
model's branches, every column is drawn before it is tested, and running it on finite values draws
what a walk of the model visits, where one branch of each partition contains the value tested. -/
theorem read_population (h : compile p d = .ok m)
    (hn : ∀ name ∈ d.names, Script.isName name.toList = true)
    (sensitive qualified : List Predicate) :
    ∃ program : List Draw,
      Script.read? Script.fit? Script.bound? "popModel"
        (Block.population p m sensitive qualified).text =
          some (Draw.printed p.decimalPlaces program) ∧
      Draw.boundsAll program = m.bounds ∧
      (∀ path ∈ Draw.pathsAll program, Supplied [] path) ∧
      ∀ value : String → Float, (∀ name ∈ d.names, (value name).isFinite = true) →
        Draw.runAll value program = (m.visited value).map (fun node =>
          (node.name, node.fit.render p.decimalPlaces)) ∧
        ∀ node ∈ m.visited value, d.names[node.column]? = some node.name ∧
          ∀ partition ∈ node.partitions, ∃ branch,
            partition.branches.filter (·.range.contains (value node.name)) = [branch] := by
  have hall : ∀ root ∈ m.roots, root.All fun node => node.Shaped d ∧ node.Named d :=
    fun root hroot => ((compile_shaped h).shaped root hroot).and
      ((Node.kept_named d).all_compile h root hroot)
  have hlegible : ∀ root ∈ m.roots, root.All Node.Legible := fun root hroot =>
    (hall root hroot).imp fun node ⟨hs, hnode⟩ =>
      ⟨hn node.name (List.mem_of_getElem? hnode),
        fun partition hp => (hs.partitions partition hp).several,
        fun partition hp => Partitioning.filled_iff.mp (hs.partitions partition hp).filled⟩
  refine ⟨Node.nodeDraws p.decimalPlaces m.roots, ?_, ?_, ?_, fun value hv => ⟨?_, ?_⟩⟩
  · rw [Block.population, List.append_assoc]
    refine Script.read?_block (by simp; decide) (Node.denotes_nodeLines 1 m.roots hlegible) ?_
    intro line hline
    rcases List.mem_append.mp hline with hline | hline
    · obtain ⟨predicate, -, rfl⟩ := List.mem_map.mp hline
      exact Script.isDeclaration_declaration (by simp [Script.keywords]) _ predicate
    · obtain ⟨predicate, -, rfl⟩ := List.mem_map.mp hline
      exact Script.isDeclaration_declaration (by simp [Script.keywords]) _ predicate
  · exact Node.boundsAll_nodeDraws p.decimalPlaces m.roots
  · exact fun path hp => (Node.provides_nodeDraws p.decimalPlaces m.roots path hp).1
  · have hrunnable : ∀ root ∈ m.roots, root.All (Node.Runnable value) := fun root hroot =>
      (hall root hroot).imp fun node ⟨hs, hnode⟩ =>
        ⟨hs.covers, hv node.name (List.mem_of_getElem? hnode)⟩
    exact Node.runAll_nodeDraws p.decimalPlaces m.roots hrunnable
  · intro node hmem
    obtain ⟨hs, hnode⟩ := (Node.All.of_mem_visitedNodes m.roots hall hmem).here
    refine ⟨hnode, fun partition hp => ?_⟩
    have hfinite := hv node.name (List.mem_of_getElem? hnode)
    obtain ⟨range, hrange⟩ := (hs.covers partition hp).chain.exists_filter_contains
      (Double.negInfinity_lt hfinite) (Double.le_of_lt (Double.lt_infinity hfinite))
    rw [List.filter_map] at hrange
    obtain ⟨branch, hbranch, -⟩ := List.map_eq_singleton_iff.mp hrange
    exact ⟨branch, hbranch⟩

theorem read_population_apart :
    ∃ m root, compile Partition.oneCut apart = .ok m ∧ m.roots = [root] ∧ IsFork root ∧
      (∀ name ∈ apart.names, Script.isName name.toList = true) ∧
      ∃ program : List Draw,
        Script.read? Script.fit? Script.bound? "popModel"
          (Block.population Partition.oneCut m [⟨"group", .greater, 0⟩] []).text =
            some (Draw.printed 6 program) ∧
        Draw.boundsAll program = m.bounds ∧
        (∀ path ∈ Draw.pathsAll program, Supplied [] path) ∧
        ∀ value : String → Float, (∀ name ∈ apart.names, (value name).isFinite = true) →
          Draw.runAll value program = (m.visited value).map (fun node =>
            (node.name, node.fit.render 6)) ∧
          ∀ node ∈ m.visited value, apart.names[node.column]? = some node.name ∧
            ∀ partition ∈ node.partitions, ∃ branch,
              partition.branches.filter (·.range.contains (value node.name)) = [branch] := by
  obtain ⟨m, root, h, hroots, hfork⟩ := exists_compile_apart
  have hn : ∀ name ∈ apart.names, Script.isName name.toList = true := by decide
  exact ⟨m, root, h, hroots, hfork, hn, read_population h hn [⟨"group", .greater, 0⟩] []⟩

end

end Population

end FairProgram
