import FairProgram.Proofs.Classifier.Unrolling
import Mathlib

/-!
# Which arrays are trees

Unrolling follows both children of every node that is no leaf, from the first node on. It returns a
rule exactly when this reaches each node along one path only and finds every number it follows in
range (`unroll_wellFormed`). The nodes visited are then those of the subtree at hand (`Unrolls`), so
that branches and leaves of the rule can be counted by them, and the levels that bound the
recursion never end it (`unrollNode_levels`).
-/

namespace FairProgram

namespace Rule

mutual
def leaves : Rule → Nat
  | .leaf _ _ => 1
  | .choice _ yes no => yes.leaves + no.leaves
  | .guarded _ yes => yes.leaves
  | .sequence statements => statementLeaves statements
def statementLeaves : List Statement → Nat
  | [] => 0
  | .assign _ _ :: rest => statementLeaves rest
  | .rule rule :: rest => rule.leaves + statementLeaves rest
end

end Rule

inductive Turn where
  | left
  | right
deriving DecidableEq

namespace DecisionTree

-- ---------------------------------------------------------------------------
-- Paths through the arrays
-- ---------------------------------------------------------------------------

def IsLeaf (tree : DecisionTree) (place : Nat) : Prop :=
  tree.left[place]? = some (-1)

def IsInner (tree : DecisionTree) (place : Nat) : Prop :=
  ∃ number, tree.left[place]? = some number ∧ number ≠ -1

def childNumber? (tree : DecisionTree) (place : Nat) : Turn → Option Int
  | .left => tree.left[place]?
  | .right => tree.right[place]?

/-- Turns at nodes that are no leaves lead from one node to another. -/
inductive Leads (tree : DecisionTree) : Nat → List Turn → Nat → Prop
  | here (place : Nat) : Leads tree place [] place
  | turn {place child stop : Nat} {turns : List Turn} (turn : Turn) :
      tree.IsInner place → tree.childNumber? place turn = some (child : Int) →
      Leads tree child turns stop → Leads tree place (turn :: turns) stop

def Reached (tree : DecisionTree) (place : Nat) : Prop :=
  ∃ turns, tree.Leads 0 turns place

/-- Arrays of one length in which the first node is the root of a tree with all that its rules
need: no node is reached twice, and the children and features of inner nodes are in range. -/
structure WellFormed (tree : DecisionTree) (features : Nat) : Prop where
  nonempty : 0 < tree.left.length
  length_right : tree.right.length = tree.left.length
  length_feature : tree.feature.length = tree.left.length
  length_threshold : tree.threshold.length = tree.left.length
  length_counts : tree.counts.length = tree.left.length
  once : ∀ {place turns turns'}, tree.Leads 0 turns place → tree.Leads 0 turns' place →
    turns = turns'
  child : ∀ {place}, tree.Reached place → tree.IsInner place → ∀ turn,
    ∃ child < tree.left.length, tree.childNumber? place turn = some (child : Int)
  feature : ∀ {place}, tree.Reached place → tree.IsInner place →
    ∃ feature < features, tree.feature[place]? = some (feature : Int)
  counts : ∀ {place}, tree.Reached place → tree.IsLeaf place →
    ∃ counts, counts ≠ [] ∧ tree.counts[place]? = some counts

section
variable {tree : DecisionTree} {place between stop : Nat} {turns later : List Turn}

theorem Leads.append (h : tree.Leads place turns between) (h' : tree.Leads between later stop) :
    tree.Leads place (turns ++ later) stop := by
  induction h with
  | here => exact h'
  | turn turn hinner hchild _ ih => exact .turn turn hinner hchild (ih h')

theorem Leads.eq_or_exists_parent (h : tree.Leads place turns stop) :
    stop = place ∨ ∃ parent turns turn, tree.Leads place turns parent ∧ tree.IsInner parent ∧
      tree.childNumber? parent turn = some (stop : Int) := by
  induction h with
  | here => exact .inl rfl
  | turn turn hinner hchild _ ih =>
    obtain rfl | ⟨parent, turns, last, hl, hinner', hchild'⟩ := ih
    · exact .inr ⟨_, [], turn, .here _, hinner, hchild⟩
    · exact .inr ⟨parent, _, last, .turn turn hinner hchild hl, hinner', hchild'⟩

theorem Leads.take (h : tree.Leads place turns stop) (count : Nat) :
    ∃ between, tree.Leads place (turns.take count) between := by
  induction h generalizing count with
  | here place => exact ⟨place, by simpa using .here place⟩
  | turn turn hinner hchild _ ih =>
    cases count with
    | zero => exact ⟨_, .here _⟩
    | succ count =>
      obtain ⟨between, hb⟩ := ih count
      exact ⟨between, .turn turn hinner hchild hb⟩

end

-- ---------------------------------------------------------------------------
-- Nodes of arrays of one length
-- ---------------------------------------------------------------------------

/-- The arrays of a tree, node by node. -/
structure Zips (tree : DecisionTree) (nodes : List TreeNode) : Prop where
  nonempty : 0 < nodes.length
  left : tree.left = nodes.map (·.left)
  right : tree.right = nodes.map (·.right)
  feature : tree.feature = nodes.map (·.feature)
  threshold : tree.threshold = nodes.map (·.threshold)
  counts : tree.counts = nodes.map (·.counts)

theorem zipNodes_map (nodes : List TreeNode) :
    zipNodes (nodes.map (·.left)) (nodes.map (·.right)) (nodes.map (·.feature))
      (nodes.map (·.threshold)) (nodes.map (·.counts)) = nodes := by
  induction nodes with
  | nil => rfl
  | cons node nodes ih => rw [List.map_cons, List.map_cons, List.map_cons, List.map_cons,
      List.map_cons, zipNodes, ih]

theorem exists_map {left right feature : List Int} {threshold : List Float}
    {counts : List (List Float)} (hright : right.length = left.length)
    (hfeature : feature.length = left.length) (hthreshold : threshold.length = left.length)
    (hcounts : counts.length = left.length) :
    ∃ nodes : List TreeNode, left = nodes.map (·.left) ∧ right = nodes.map (·.right) ∧
      feature = nodes.map (·.feature) ∧ threshold = nodes.map (·.threshold) ∧
      counts = nodes.map (·.counts) := by
  refine ⟨List.ofFn fun i : Fin left.length =>
    ⟨left[i], right[i], feature[i], threshold[i], counts[i]⟩, ?_, ?_, ?_, ?_, ?_⟩ <;>
  exact List.ext_getElem (by simp [*]) fun _ _ _ => by simp

theorem nodes_eq_ok_iff {tree : DecisionTree} {nodes : List TreeNode} :
    tree.nodes = .ok nodes ↔ tree.Zips nodes := by
  constructor
  · intro h
    unfold DecisionTree.nodes at h
    dsimp only at h
    split at h
    · cases h
    rename_i hpos
    obtain ⟨_, hright, h⟩ := bind_ok h
    obtain ⟨_, hfeature, h⟩ := bind_ok h
    obtain ⟨_, hthreshold, h⟩ := bind_ok h
    obtain ⟨_, hcounts, h⟩ := bind_ok h
    obtain ⟨nodes', hl, hr, hf, ht, hc⟩ := exists_map (expectCount_ok hright)
      (expectCount_ok hfeature) (expectCount_ok hthreshold) (expectCount_ok hcounts)
    rw [hl, hr, hf, ht, hc, zipNodes_map] at h
    cases h
    refine ⟨Nat.pos_of_ne_zero ?_, hl, hr, hf, ht, hc⟩
    rwa [hl, List.length_map] at hpos
  · rintro ⟨hpos, hl, hr, hf, ht, hc⟩
    have hne : nodes.length ≠ 0 := Nat.pos_iff_ne_zero.mp hpos
    simp [DecisionTree.nodes, hl, hr, hf, ht, hc, expectCount, zipNodes_map, hne, bind, Except.bind,
      pure, Except.pure]

-- ---------------------------------------------------------------------------
-- Subtrees
-- ---------------------------------------------------------------------------

theorem place?_eq_some_iff {size : Nat} {number : Int} {place : Fin size} :
    place? size number = some place ↔ number = (place : Nat) := by
  unfold place?
  split
  · rename_i h
    rw [Option.some.injEq, Fin.ext_iff]
    show number.toNat = _ ↔ _
    omega
  · rename_i h
    simp only [reduceCtorEq, false_iff]
    rintro rfl
    exact h ⟨Int.natCast_nonneg _, by simp⟩

theorem child_eq_ok_iff {nodes : List TreeNode} {index place : Fin nodes.length} {number : Int} :
    child nodes index number = .ok place ↔ place? nodes.length number = some place := by
  unfold child
  split <;> simp_all

theorem majority?_eq_none_iff {counts : List Float} : majority? counts = none ↔ counts = [] := by
  simp [majority?]

variable {nodes : List TreeNode} {features : List String} {target : String}

/-- Paths that start with one more turn. -/
def turnInto (turn : Turn) {size : Nat} (paths : List (List Turn × Fin size)) :
    List (List Turn × Fin size) :=
  paths.map fun (turns, place) => (turn :: turns, place)

@[simp] theorem map_snd_turnInto {size : Nat} (turn : Turn)
    (paths : List (List Turn × Fin size)) :
    (turnInto turn paths).map (·.2) = paths.map (·.2) := by
  simp [turnInto]

/-- The rule of the subtree at a node, and the nodes of the subtree with the paths to them, the
last one visited in front. -/
inductive Unrolls (nodes : List TreeNode) (features : List String) (target : String) :
    Fin nodes.length → Rule → List (List Turn × Fin nodes.length) → Prop
  | leaf {index : Fin nodes.length} {classIndex : Nat} :
      (nodes.get index).left = -1 → majority? (nodes.get index).counts = some classIndex →
      Unrolls nodes features target index (.leaf target classIndex) [([], index)]
  | choice {index left right : Fin nodes.length} {feature : Fin features.length}
      {yes no : Rule} {above below : List (List Turn × Fin nodes.length)} :
      (nodes.get index).left ≠ -1 → place? nodes.length (nodes.get index).left = some left →
      place? nodes.length (nodes.get index).right = some right →
      place? features.length (nodes.get index).feature = some feature →
      Unrolls nodes features target right yes above →
      Unrolls nodes features target left no below →
      Unrolls nodes features target index
        (.choice ⟨.var (features.get feature), .greater, .real (nodes.get index).threshold⟩ yes no)
        (turnInto .left below ++ turnInto .right above ++ [([], index)])

section
variable {index : Fin nodes.length} {rule : Rule} {visited later : List (Fin nodes.length)}
  {paths : List (List Turn × Fin nodes.length)} {levels : Nat}

theorem unrollNode_of_mem (h : index ∈ visited) :
    unrollNode nodes features target levels index visited = .error (.node index .reachedTwice) := by
  cases levels with
  | zero => rfl
  | succ levels => rw [unrollNode, if_pos (List.contains_iff_mem.mpr h)]; rfl

theorem unrollNode_leaf (h : index ∉ visited) (hleaf : (nodes.get index).left = -1) :
    unrollNode nodes features target (levels + 1) index visited =
      match majority? (nodes.get index).counts with
      | some classIndex => .ok (.leaf target classIndex, index :: visited)
      | none => .error (.node index .noCounts) := by
  rw [unrollNode, if_neg (by simpa using h)]
  exact if_pos hleaf

theorem unrollNode_inner (h : index ∉ visited) (hinner : (nodes.get index).left ≠ -1) :
    unrollNode nodes features target (levels + 1) index visited = do
      let left ← child nodes index (nodes.get index).left
      let right ← child nodes index (nodes.get index).right
      match place? features.length (nodes.get index).feature with
      | none => .error (.node index (.featureOutOfRange (nodes.get index).feature features.length))
      | some feature =>
        let (yes, between) ← unrollNode nodes features target levels right (index :: visited)
        let (no, later) ← unrollNode nodes features target levels left between
        let condition : Condition :=
          ⟨.var (features.get feature), .greater, .real (nodes.get index).threshold⟩
        return (.choice condition yes no, later) := by
  rw [unrollNode, if_neg (by simpa using h)]
  exact if_neg hinner

/-- Whatever is returned is the rule of a subtree none of whose nodes was visited before. -/
theorem unrolls_of_ok
    (h : unrollNode nodes features target levels index visited = .ok (rule, later))
    (hv : visited.Nodup) :
    ∃ paths, Unrolls nodes features target index rule paths ∧
      later = paths.map (·.2) ++ visited ∧ later.Nodup := by
  induction levels generalizing index visited later rule with
  | zero => cases h
  | succ levels ih =>
    by_cases hnew : index ∈ visited
    · rw [unrollNode_of_mem hnew] at h
      cases h
    have hv : (index :: visited).Nodup := List.nodup_cons.mpr ⟨hnew, hv⟩
    by_cases hleaf : (nodes.get index).left = -1
    · rw [unrollNode_leaf hnew hleaf] at h
      split at h
      · rename_i hclass
        cases h
        exact ⟨_, .leaf hleaf hclass, rfl, hv⟩
      · cases h
    · rw [unrollNode_inner hnew hleaf] at h
      obtain ⟨left, hleft, h⟩ := bind_ok h
      obtain ⟨right, hright, h⟩ := bind_ok h
      split at h
      · cases h
      · rename_i hfeature
        obtain ⟨⟨yes, between⟩, hyes, h⟩ := bind_ok h
        obtain ⟨⟨no, later⟩, hno, h⟩ := bind_ok h
        cases h
        obtain ⟨above, habove, rfl, hb⟩ := ih hyes hv
        obtain ⟨below, hbelow, rfl, hl⟩ := ih hno hb
        exact ⟨_, .choice hleaf (child_eq_ok_iff.mp hleft) (child_eq_ok_iff.mp hright) hfeature
          habove hbelow, by simp, hl⟩

/-- A subtree none of whose nodes was visited before is unrolled, given a level for each node. -/
theorem Unrolls.unrollNode_eq (h : Unrolls nodes features target index rule paths)
    (hv : (paths.map (·.2) ++ visited).Nodup) (hlevels : paths.length ≤ levels) :
    unrollNode nodes features target levels index visited =
      .ok (rule, paths.map (·.2) ++ visited) := by
  induction h generalizing visited levels with
  | @leaf index _ hleaf hclass =>
    obtain ⟨levels, rfl⟩ := Nat.exists_eq_add_of_le' hlevels
    have hnew : index ∉ visited := (List.nodup_cons.mp hv).1
    rw [List.length_singleton, unrollNode_leaf hnew hleaf, hclass]
    rfl
  | @choice index left right feature yes no above below hinner hleft hright hfeature _ _ ihy ihn =>
    simp only [List.map_append, map_snd_turnInto, List.map_cons, List.map_nil, List.append_assoc,
      List.singleton_append] at hv ⊢
    simp only [turnInto, List.length_append, List.length_map, List.length_singleton] at hlevels
    obtain ⟨levels, rfl⟩ : ∃ less, levels = less + 1 := ⟨levels - 1, by omega⟩
    have hv' := (List.nodup_append.mp hv).2.1
    have hnew : index ∉ visited := (List.nodup_cons.mp (List.nodup_append.mp hv').2.1).1
    have habove : above.length ≤ levels := by omega
    have hbelow : below.length ≤ levels := by omega
    have hyes := ihy hv' habove
    have hno := ihn hv hbelow
    rw [unrollNode_inner hnew hinner, child_eq_ok_iff.mpr hleft, child_eq_ok_iff.mpr hright,
      hfeature]
    simp only [bind, Except.bind, hyes, hno]
    rfl

theorem mem_of_length_le (hv : visited.Nodup) (h : nodes.length ≤ visited.length) :
    index ∈ visited := by
  by_contra hnew
  have hle := (List.nodup_cons.mpr ⟨hnew, hv⟩).length_le_card
  rw [List.length_cons, Fintype.card_fin] at hle
  omega

/-- More levels than nodes not yet visited make no difference. -/
theorem unrollNode_levels {levels' : Nat} (hv : visited.Nodup)
    (h : nodes.length ≤ levels + visited.length) (h' : nodes.length ≤ levels' + visited.length) :
    unrollNode nodes features target levels index visited =
      unrollNode nodes features target levels' index visited := by
  induction levels generalizing levels' index visited with
  | zero =>
    rw [unrollNode_of_mem (mem_of_length_le hv (by omega)),
      unrollNode_of_mem (mem_of_length_le hv (by omega))]
  | succ levels ih =>
    by_cases hnew : index ∈ visited
    · rw [unrollNode_of_mem hnew, unrollNode_of_mem hnew]
    have hlt : visited.length < nodes.length :=
      Nat.lt_of_not_le fun hle => hnew (mem_of_length_le hv hle)
    obtain ⟨levels', rfl⟩ : ∃ less, levels' = less + 1 := ⟨levels' - 1, by omega⟩
    by_cases hleaf : (nodes.get index).left = -1
    · rw [unrollNode_leaf hnew hleaf, unrollNode_leaf hnew hleaf]
    rw [unrollNode_inner hnew hleaf, unrollNode_inner hnew hleaf]
    refine bind_congr fun left => bind_congr fun right => ?_
    split
    · rfl
    have hv' : (index :: visited).Nodup := List.nodup_cons.mpr ⟨hnew, hv⟩
    have hright : nodes.length ≤ levels' + (index :: visited).length := by simp; omega
    rw [ih hv' (by simp; omega) hright]
    cases hyes : unrollNode nodes features target levels' right (index :: visited) with
    | error e => rfl
    | ok result =>
      obtain ⟨above, -, hbetween, hb⟩ := unrolls_of_ok hyes hv'
      have hlen := congrArg List.length hbetween
      simp only [List.length_append, List.length_cons] at hlen
      simp only [bind, Except.bind]
      rw [ih hb (by omega) (show nodes.length ≤ levels' + _ by omega)]

end

-- ---------------------------------------------------------------------------
-- Nodes of a subtree
-- ---------------------------------------------------------------------------

section
variable {tree : DecisionTree} {index left right : Fin nodes.length} {turns : List Turn}
  {stop : Nat}

theorem Zips.isLeaf_iff (hz : tree.Zips nodes) :
    tree.IsLeaf index ↔ (nodes.get index).left = -1 := by
  simp [IsLeaf, hz.left]

theorem Zips.isInner_iff (hz : tree.Zips nodes) :
    tree.IsInner index ↔ (nodes.get index).left ≠ -1 := by
  simp [IsInner, hz.left]

theorem Zips.childNumber?_left (hz : tree.Zips nodes) :
    tree.childNumber? index .left = some (nodes.get index).left := by
  simp [childNumber?, hz.left]

theorem Zips.childNumber?_right (hz : tree.Zips nodes) :
    tree.childNumber? index .right = some (nodes.get index).right := by
  simp [childNumber?, hz.right]

theorem Zips.leads_leaf_iff (hz : tree.Zips nodes) (hleaf : (nodes.get index).left = -1) :
    tree.Leads index turns stop ↔ turns = [] ∧ stop = index := by
  constructor
  · intro h
    cases h with
    | here => exact ⟨rfl, rfl⟩
    | turn _ hinner _ _ => exact absurd hleaf (hz.isInner_iff.mp hinner)
  · rintro ⟨rfl, rfl⟩
    exact .here _

theorem Zips.leads_inner_iff (hz : tree.Zips nodes) (hinner : (nodes.get index).left ≠ -1)
    (hleft : place? nodes.length (nodes.get index).left = some left)
    (hright : place? nodes.length (nodes.get index).right = some right) :
    tree.Leads index turns stop ↔ turns = [] ∧ stop = index ∨
      (∃ rest, turns = .left :: rest ∧ tree.Leads left rest stop) ∨
      ∃ rest, turns = .right :: rest ∧ tree.Leads right rest stop := by
  rw [place?_eq_some_iff] at hleft hright
  constructor
  · intro h
    cases h with
    | here => exact .inl ⟨rfl, rfl⟩
    | @turn _ child _ rest turn _ hchild hrest =>
      cases turn with
      | left =>
        rw [hz.childNumber?_left, hleft, Option.some.injEq, Int.natCast_inj] at hchild
        exact .inr (.inl ⟨rest, rfl, hchild ▸ hrest⟩)
      | right =>
        rw [hz.childNumber?_right, hright, Option.some.injEq, Int.natCast_inj] at hchild
        exact .inr (.inr ⟨rest, rfl, hchild ▸ hrest⟩)
  · have hinner := hz.isInner_iff.mpr hinner
    rintro (⟨rfl, rfl⟩ | ⟨rest, rfl, h⟩ | ⟨rest, rfl, h⟩)
    · exact .here _
    · exact .turn .left hinner (hleft ▸ hz.childNumber?_left) h
    · exact .turn .right hinner (hright ▸ hz.childNumber?_right) h

variable {rule : Rule} {paths : List (List Turn × Fin nodes.length)}

theorem Unrolls.leads_iff (hz : tree.Zips nodes)
    (h : Unrolls nodes features target index rule paths) :
    tree.Leads index turns stop ↔ ∃ place, (turns, place) ∈ paths ∧ stop = place := by
  induction h generalizing turns with
  | leaf hleaf _ => simp [hz.leads_leaf_iff hleaf, and_assoc]
  | choice hinner hleft hright _ _ _ ihy ihn =>
    simp only [hz.leads_inner_iff hinner hleft hright, ihy, ihn, turnInto, List.mem_append,
      List.mem_map, List.mem_singleton, Prod.mk.injEq]
    constructor
    · rintro (⟨rfl, rfl⟩ | ⟨rest, rfl, place, hp, rfl⟩ | ⟨rest, rfl, place, hp, rfl⟩)
      · exact ⟨_, .inr ⟨rfl, rfl⟩, rfl⟩
      · exact ⟨place, .inl (.inl ⟨_, hp, rfl, rfl⟩), rfl⟩
      · exact ⟨place, .inl (.inr ⟨_, hp, rfl, rfl⟩), rfl⟩
    · rintro ⟨_, (⟨⟨rest, place⟩, hp, rfl, rfl⟩ | ⟨⟨rest, place⟩, hp, rfl, rfl⟩) | ⟨rfl, rfl⟩, rfl⟩
      · exact .inr (.inl ⟨rest, rfl, place, hp, rfl⟩)
      · exact .inr (.inr ⟨rest, rfl, place, hp, rfl⟩)
      · exact .inl ⟨rfl, rfl⟩

theorem Unrolls.nodup_turns (h : Unrolls nodes features target index rule paths) :
    (paths.map (·.1)).Nodup := by
  induction h with
  | leaf _ _ => simp
  | choice _ _ _ _ _ _ ihy ihn =>
    have hturn (turn : Turn) (paths : List (List Turn × Fin nodes.length)) :
        (turnInto turn paths).map (·.1) = (paths.map (·.1)).map (turn :: ·) := by
      simp [turnInto]
    rw [List.map_append, List.map_append, hturn, hturn]
    refine .append (.append (ihn.map List.cons_injective) (ihy.map List.cons_injective) ?_)
      (List.nodup_singleton _) ?_
    · intro turns hl hr
      obtain ⟨_, -, rfl⟩ := List.mem_map.mp hl
      simp at hr
    · intro turns hs hroot
      simp only [List.map_cons, List.map_nil, List.mem_singleton] at hroot
      simp [hroot] at hs

/-- A subtree has no node twice exactly when no two paths lead to the same node. -/
theorem Unrolls.nodup_iff (hz : tree.Zips nodes)
    (h : Unrolls nodes features target index rule paths) :
    (paths.map (·.2)).Nodup ↔ ∀ {stop turns turns'}, tree.Leads index turns stop →
      tree.Leads index turns' stop → turns = turns' := by
  have hpaths : paths.Nodup := h.nodup_turns.of_map _
  rw [List.nodup_map_iff_inj_on hpaths]
  simp only [h.leads_iff hz]
  constructor
  · rintro hinj _ turns turns' ⟨place, hp, rfl⟩ ⟨place', hp', heq⟩
    exact congrArg Prod.fst (hinj _ hp _ hp' (Fin.ext heq))
  · rintro honce ⟨turns, place⟩ hp ⟨turns', _⟩ hp' rfl
    rw [honce ⟨place, hp, rfl⟩ ⟨place, hp', rfl⟩]

theorem Unrolls.of_mem (h : Unrolls nodes features target index rule paths)
    {place : Fin nodes.length} (hp : (turns, place) ∈ paths) :
    ∃ rule paths, Unrolls nodes features target place rule paths := by
  induction h generalizing turns with
  | leaf hleaf hclass =>
    obtain ⟨-, rfl⟩ := Prod.mk.injEq .. ▸ List.mem_singleton.mp hp
    exact ⟨_, _, .leaf hleaf hclass⟩
  | choice hinner hleft hright hfeature hyes hno ihy ihn =>
    simp only [turnInto, List.mem_append, List.mem_map, List.mem_singleton, Prod.mk.injEq] at hp
    obtain (⟨⟨rest, _⟩, hp, rfl, rfl⟩ | ⟨⟨rest, _⟩, hp, rfl, rfl⟩) | ⟨rfl, rfl⟩ := hp
    · exact ihn hp
    · exact ihy hp
    · exact ⟨_, _, .choice hinner hleft hright hfeature hyes hno⟩

theorem Unrolls.branches_eq (h : Unrolls nodes features target index rule paths) :
    rule.branches = (paths.map (·.2)).countP fun place => decide ((nodes.get place).left ≠ -1) := by
  induction h with
  | leaf hleaf _ =>
    rw [Rule.branches, List.map_cons, List.map_nil, List.countP_singleton,
      if_neg (by simpa using hleaf)]
  | choice hinner _ _ _ _ _ ihy ihn =>
    rw [Rule.branches, ihy, ihn, List.map_append, List.map_append, map_snd_turnInto,
      map_snd_turnInto, List.countP_append, List.countP_append, List.map_cons, List.map_nil,
      List.countP_singleton, if_pos (decide_eq_true hinner)]
    omega

theorem Unrolls.leaves_eq (h : Unrolls nodes features target index rule paths) :
    rule.leaves = (paths.map (·.2)).countP fun place => decide ((nodes.get place).left = -1) := by
  induction h with
  | leaf hleaf _ =>
    rw [Rule.leaves, List.map_cons, List.map_nil, List.countP_singleton,
      if_pos (decide_eq_true hleaf)]
  | choice hinner _ _ _ _ _ ihy ihn =>
    rw [Rule.leaves, ihy, ihn, List.map_append, List.map_append, map_snd_turnInto,
      map_snd_turnInto, List.countP_append, List.countP_append, List.map_cons, List.map_nil,
      List.countP_singleton, if_neg (by simpa using hinner)]
    omega

/-- The nodes of a subtree that have some property, counted by the paths to them. -/
theorem Unrolls.ncard_eq (hz : tree.Zips nodes)
    (h : Unrolls nodes features target index rule paths) (hn : (paths.map (·.2)).Nodup)
    {holds : Nat → Prop} {holds' : Fin nodes.length → Bool}
    (hholds : ∀ place : Fin nodes.length, holds place ↔ holds' place = true) :
    {place | (∃ turns, tree.Leads index turns place) ∧ holds place}.ncard =
      (paths.map (·.2)).countP holds' := by
  have hset : {place | (∃ turns, tree.Leads index turns place) ∧ holds place} =
      ((((paths.map (·.2)).filter holds').map Fin.val).toFinset : Set Nat) := by
    ext place
    simp only [h.leads_iff hz, Set.mem_ofPred_eq, Finset.mem_coe, List.mem_toFinset, List.mem_map,
      List.mem_filter]
    constructor
    · rintro ⟨⟨turns, place, hp, rfl⟩, hh⟩
      exact ⟨place, ⟨⟨_, hp, rfl⟩, (hholds place).mp hh⟩, rfl⟩
    · rintro ⟨_, ⟨⟨⟨turns, place⟩, hp, rfl⟩, hh⟩, rfl⟩
      exact ⟨⟨turns, place, hp, rfl⟩, (hholds place).mpr hh⟩
  rw [hset, Set.ncard_coe_finset, List.toFinset_card_of_nodup, List.length_map,
    List.countP_eq_length_filter]
  exact (hn.filter _).map Fin.val_injective

end

-- ---------------------------------------------------------------------------
-- Accepted trees
-- ---------------------------------------------------------------------------

section
variable {tree : DecisionTree}

theorem WellFormed.lt_of_reached {count place : Nat} (h : tree.WellFormed count)
    (hr : tree.Reached place) : place < tree.left.length := by
  obtain ⟨turns, hl⟩ := hr
  obtain rfl | ⟨parent, turns, turn, hl, hinner, hchild⟩ := hl.eq_or_exists_parent
  · exact h.nonempty
  · obtain ⟨child, hlt, hchild'⟩ := h.child ⟨turns, hl⟩ hinner turn
    rw [hchild, Option.some.injEq, Int.natCast_inj] at hchild'
    exact hchild' ▸ hlt

/-- The nodes along a path are all different, so that there are more nodes than turns. -/
theorem WellFormed.length_lt {count stop : Nat} {turns : List Turn} (h : tree.WellFormed count)
    (hl : tree.Leads 0 turns stop) : turns.length < tree.left.length := by
  choose along halong using hl.take
  let visit (i : Fin (turns.length + 1)) : Fin tree.left.length :=
    ⟨along i, h.lt_of_reached ⟨_, halong i⟩⟩
  have hinj : Function.Injective visit := by
    intro i j hij
    have heq : along i = along j := congrArg Fin.val hij
    have htake := congrArg List.length (h.once (halong i) (heq ▸ halong j))
    rw [List.length_take, List.length_take] at htake
    omega
  simpa using Fintype.card_le_of_injective visit hinj

/-- Levels are never used up, since a path visits another node with each turn. -/
theorem WellFormed.exists_unrolls (h : tree.WellFormed features.length) (hz : tree.Zips nodes)
    (levels : Nat) {turns : List Turn} {index : Fin nodes.length}
    (hl : tree.Leads 0 turns index) (hlevels : nodes.length ≤ turns.length + levels) :
    ∃ rule paths, Unrolls nodes features target index rule paths := by
  have hlength : tree.left.length = nodes.length := by rw [hz.left, List.length_map]
  induction levels generalizing turns index with
  | zero =>
    have hlt := h.length_lt hl
    omega
  | succ levels ih =>
    by_cases hleaf : (nodes.get index).left = -1
    · obtain ⟨counts, hne, hcounts⟩ := h.counts ⟨turns, hl⟩ (hz.isLeaf_iff.mpr hleaf)
      have hcounts' : (nodes.get index).counts = counts := by simpa [hz.counts] using hcounts
      cases hclass : majority? (nodes.get index).counts with
      | none => exact absurd (hcounts' ▸ majority?_eq_none_iff.mp hclass) hne
      | some classIndex => exact ⟨_, _, .leaf hleaf hclass⟩
    · have hinner := hz.isInner_iff.mpr hleaf
      obtain ⟨left, hleft, hnumber⟩ := h.child ⟨turns, hl⟩ hinner .left
      obtain ⟨right, hright, hnumber'⟩ := h.child ⟨turns, hl⟩ hinner .right
      obtain ⟨feature, hfeature, hnumber''⟩ := h.feature ⟨turns, hl⟩ hinner
      have hl' : tree.Leads 0 (turns ++ [.left]) (⟨left, hlength ▸ hleft⟩ : Fin nodes.length) :=
        hl.append (.turn .left hinner hnumber (.here _))
      have hr' : tree.Leads 0 (turns ++ [.right]) (⟨right, hlength ▸ hright⟩ : Fin nodes.length) :=
        hl.append (.turn .right hinner hnumber' (.here _))
      obtain ⟨yes, above, habove⟩ := ih hr' (by simp; omega)
      obtain ⟨no, below, hbelow⟩ := ih hl' (by simp; omega)
      rw [hz.childNumber?_left, Option.some.injEq] at hnumber
      rw [hz.childNumber?_right, Option.some.injEq] at hnumber'
      have hnumber'' : (nodes.get index).feature = feature := by simpa [hz.feature] using hnumber''
      have hplace : place? features.length (nodes.get index).feature = some ⟨feature, hfeature⟩ :=
        place?_eq_some_iff.mpr hnumber''
      exact ⟨_, _, .choice hleaf (place?_eq_some_iff.mpr hnumber) (place?_eq_some_iff.mpr hnumber')
        hplace habove hbelow⟩

theorem Unrolls.wellFormed (hz : tree.Zips nodes) {rule : Rule}
    {paths : List (List Turn × Fin nodes.length)}
    (h : Unrolls nodes features target ⟨0, hz.nonempty⟩ rule paths)
    (hn : (paths.map (·.2)).Nodup) : tree.WellFormed features.length := by
  have hsub {place : Nat} (hr : tree.Reached place) : ∃ (place' : Fin nodes.length) (rule : Rule)
      (paths : _), place = place' ∧ Unrolls nodes features target place' rule paths := by
    obtain ⟨turns, hl⟩ := hr
    obtain ⟨place, hp, rfl⟩ := (h.leads_iff hz).mp hl
    obtain ⟨rule, paths, hsub⟩ := h.of_mem hp
    exact ⟨place, rule, paths, rfl, hsub⟩
  constructor
  case nonempty => simpa [hz.left] using hz.nonempty
  case length_right => simp [hz.left, hz.right]
  case length_feature => simp [hz.left, hz.feature]
  case length_threshold => simp [hz.left, hz.threshold]
  case length_counts => simp [hz.left, hz.counts]
  case once => exact (h.nodup_iff hz).mp hn
  case child =>
    intro place hr hinner turn
    obtain ⟨place, _, _, rfl, hsub⟩ := hsub hr
    have hlength : tree.left.length = nodes.length := by rw [hz.left, List.length_map]
    cases hsub with
    | leaf hleaf _ => exact absurd hleaf (hz.isInner_iff.mp hinner)
    | @choice _ left right _ _ _ _ _ _ hleft hright _ _ _ =>
      rw [hlength]
      cases turn with
      | left => exact ⟨left, left.isLt, place?_eq_some_iff.mp hleft ▸ hz.childNumber?_left⟩
      | right => exact ⟨right, right.isLt, place?_eq_some_iff.mp hright ▸ hz.childNumber?_right⟩
  case feature =>
    intro place hr hinner
    obtain ⟨place, _, _, rfl, hsub⟩ := hsub hr
    cases hsub with
    | leaf hleaf _ => exact absurd hleaf (hz.isInner_iff.mp hinner)
    | @choice _ _ _ feature _ _ _ _ _ _ _ hfeature _ _ =>
      rw [place?_eq_some_iff] at hfeature
      exact ⟨feature, feature.isLt, by simpa [hz.feature] using hfeature⟩
  case counts =>
    intro place hr hleaf
    obtain ⟨place, _, _, rfl, hsub⟩ := hsub hr
    cases hsub with
    | leaf _ hclass =>
      refine ⟨(nodes.get place).counts, fun hnil => ?_, by simp [hz.counts]⟩
      rw [majority?_eq_none_iff.mpr hnil] at hclass
      cases hclass
    | choice hinner _ _ _ _ _ => exact absurd (hz.isLeaf_iff.mp hleaf) hinner

/-- What is returned is the rule of the subtree of the first node, and it is returned where no node
of that subtree is reached twice. -/
theorem unroll_eq_ok_iff {rule : Rule} :
    tree.unroll features target = .ok rule ↔
      ∃ (nodes : List TreeNode) (hz : tree.Zips nodes) (paths : _),
        Unrolls nodes features target ⟨0, hz.nonempty⟩ rule paths ∧ (paths.map (·.2)).Nodup := by
  constructor
  · intro h
    obtain ⟨nodes, hnodes, h⟩ := bind_ok h
    have hz := nodes_eq_ok_iff.mp hnodes
    rw [dif_pos hz.nonempty] at h
    obtain ⟨⟨rule, visited⟩, hroot, h⟩ := bind_ok h
    cases h
    obtain ⟨paths, hpaths, rfl, hn⟩ := unrolls_of_ok hroot List.nodup_nil
    exact ⟨nodes, hz, paths, hpaths, by simpa using hn⟩
  · rintro ⟨nodes, hz, paths, h, hn⟩
    have hlevels : paths.length ≤ nodes.length := by simpa using hn.length_le_card
    have hroot : unrollNode nodes features target nodes.length ⟨0, hz.nonempty⟩ [] =
        .ok (rule, paths.map (·.2) ++ []) := h.unrollNode_eq (by simpa using hn) hlevels
    simp only [unroll, nodes_eq_ok_iff.mpr hz, bind, Except.bind, dif_pos hz.nonempty, hroot]
    rfl

/-- Trees and nothing else are unrolled, and the levels given to the recursion make no difference to
what is returned. -/
theorem unroll_wellFormed (tree : DecisionTree) (features : List String) (target : String) :
    (∀ (nodes : List TreeNode) (levels : Nat) (root : Fin nodes.length), nodes.length ≤ levels →
      unrollNode nodes features target levels root [] =
        unrollNode nodes features target nodes.length root []) ∧
    ((∃ rule, tree.unroll features target = .ok rule) ↔ tree.WellFormed features.length) ∧
    (∀ rule, tree.unroll features target = .ok rule →
      rule.branches = {place | tree.Reached place ∧ tree.IsInner place}.ncard ∧
      rule.leaves = {place | tree.Reached place ∧ tree.IsLeaf place}.ncard) := by
  refine ⟨?_, ⟨?_, ?_⟩, ?_⟩
  · intro nodes levels root hlevels
    exact unrollNode_levels List.nodup_nil hlevels le_rfl
  · rintro ⟨rule, hrule⟩
    obtain ⟨nodes, hz, paths, h, hn⟩ := unroll_eq_ok_iff.mp hrule
    exact h.wellFormed hz hn
  · intro h
    obtain ⟨nodes, hl, hr, hf, ht, hc⟩ := exists_map h.length_right h.length_feature
      h.length_threshold h.length_counts
    have hpos : 0 < nodes.length := by simpa [hl] using h.nonempty
    have hz : tree.Zips nodes := ⟨hpos, hl, hr, hf, ht, hc⟩
    have hstart : tree.Leads 0 [] (⟨0, hpos⟩ : Fin nodes.length) := .here 0
    obtain ⟨rule, paths, hroot⟩ := h.exists_unrolls hz nodes.length hstart (Nat.le_add_left _ _)
    exact ⟨rule, unroll_eq_ok_iff.mpr ⟨nodes, hz, paths, hroot, (hroot.nodup_iff hz).mpr h.once⟩⟩
  · intro rule hrule
    obtain ⟨nodes, hz, paths, h, hn⟩ := unroll_eq_ok_iff.mp hrule
    exact ⟨h.branches_eq.trans (h.ncard_eq hz hn fun _ => by simp [hz.isInner_iff]).symm,
      h.leaves_eq.trans (h.ncard_eq hz hn fun _ => by simp [hz.isLeaf_iff]).symm⟩

end

end DecisionTree

end FairProgram
