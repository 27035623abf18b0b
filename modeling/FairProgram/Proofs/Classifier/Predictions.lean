import FairProgram.Proofs.Classifier.Documents
import FairProgram.Proofs.Double.Order
import FairProgram.Proofs.Rule.Execution
import FairProgram.Proofs.Selection
import Mathlib

/-!
# What the rules of a tree predict

A tree predicts by descending from its first node: to the left child where the feature tested is at
most the threshold, and to the right child elsewhere. Its rules test the other way round: they
descend to the right where the feature is greater, and assign the class of the leaf that is come to,
and nothing else (`unroll_predicts`). The two ways differ where a threshold is not a number
(`exists_unlike_prediction`), which no document can say.
-/

namespace FairProgram

/-- To the left where the value is at most the threshold. -/
def Turn.atMost (value threshold : Float) : Turn :=
  if value ≤ threshold then .left else .right

/-- To the right where the value is greater than the threshold. -/
def Turn.greater (value threshold : Float) : Turn :=
  if threshold < value then .right else .left

theorem Turn.atMost_eq_greater {value threshold : Float} (hvalue : value.isNaN = false)
    (hthreshold : threshold.isNaN = false) : atMost value threshold = greater value threshold := by
  unfold atMost greater
  by_cases h : threshold < value
  · rw [if_neg (Double.not_le_of_lt h), if_pos h]
  · have hle : value ≤ threshold := not_not.mp (mt (Double.lt_of_not_le hvalue hthreshold) h)
    rw [if_pos hle, if_neg h]

namespace DecisionTree

def Tests (tree : DecisionTree) (features : List String) (place : Nat) (name : String)
    (threshold : Float) : Prop :=
  ∃ feature : Nat, tree.feature[place]? = some (feature : Int) ∧ features[feature]? = some name ∧
    tree.threshold[place]? = some threshold

/-- Descent to a leaf, with a turn at each node by the feature and the threshold. -/
inductive Descends (tree : DecisionTree) (features : List String) (turn : Float → Float → Turn)
    (store : String → Float) : Nat → Nat → Prop
  | leaf {place : Nat} : tree.IsLeaf place → Descends tree features turn store place place
  | inner {place child leaf : Nat} {name : String} {threshold : Float} :
      tree.IsInner place → tree.Tests features place name threshold →
      tree.childNumber? place (turn (store name) threshold) = some (child : Int) →
      Descends tree features turn store child leaf → Descends tree features turn store place leaf

/-- The first of the classes of greatest count at a node. -/
def IsMajority (tree : DecisionTree) (place classIndex : Nat) : Prop :=
  ∃ counts top, tree.counts[place]? = some counts ∧ counts[classIndex]? = some top ∧
    (∀ earlier < classIndex, ∀ count, counts[earlier]? = some count → count < top) ∧
    ∀ count ∈ counts, count ≤ top

variable {tree : DecisionTree} {features : List String} {target : String}
  {store : String → Float}

theorem Tests.unique {place : Nat} {name name' : String} {threshold threshold' : Float}
    (h : tree.Tests features place name threshold)
    (h' : tree.Tests features place name' threshold') : name = name' ∧ threshold = threshold' := by
  obtain ⟨feature, hf, hn, ht⟩ := h
  obtain ⟨feature', hf', hn', ht'⟩ := h'
  rw [hf, Option.some.injEq, Int.natCast_inj] at hf'
  subst hf'
  exact ⟨Option.some.inj (hn.symm.trans hn'), Option.some.inj (ht.symm.trans ht')⟩

section
variable {turn : Float → Float → Turn} {place leaf leaf' : Nat}

theorem Descends.unique (h : tree.Descends features turn store place leaf)
    (h' : tree.Descends features turn store place leaf') : leaf = leaf' := by
  induction h with
  | leaf hleaf =>
    cases h' with
    | leaf _ => rfl
    | inner hinner _ _ _ =>
      obtain ⟨number, hnumber, hne⟩ := hinner
      exact absurd (Option.some.inj (hnumber.symm.trans hleaf)) hne
  | inner hinner htests hchild _ ih =>
    cases h' with
    | leaf hleaf =>
      obtain ⟨number, hnumber, hne⟩ := hinner
      exact absurd (Option.some.inj (hnumber.symm.trans hleaf)) hne
    | inner _ htests' hchild' hd =>
      obtain ⟨rfl, rfl⟩ := htests.unique htests'
      rw [hchild, Option.some.injEq, Int.natCast_inj] at hchild'
      exact ih (hchild' ▸ hd)

theorem Descends.iff_eq (h : tree.Descends features turn store place leaf) :
    tree.Descends features turn store place leaf' ↔ leaf' = leaf :=
  ⟨fun h' => h'.unique h, fun heq => heq ▸ h⟩

theorem Reached.child (h : tree.Reached place) (hinner : tree.IsInner place) {child : Nat}
    {turn : Turn} (hchild : tree.childNumber? place turn = some (child : Int)) :
    tree.Reached child := by
  obtain ⟨turns, hleads⟩ := h
  exact ⟨turns ++ [turn], hleads.append (.turn turn hinner hchild (.here child))⟩

theorem Descends.reached (h : tree.Descends features turn store place leaf)
    (hplace : tree.Reached place) : tree.Reached leaf ∧ tree.IsLeaf leaf := by
  induction h with
  | leaf hleaf => exact ⟨hplace, hleaf⟩
  | inner hinner _ hchild _ ih => exact ih (hplace.child hinner hchild)

/-- Among numbers, not to be greater is to be at most. -/
theorem Descends.atMost (h : tree.Descends features .greater store place leaf)
    (hplace : tree.Reached place) (hnumeric : tree.Numeric)
    (hstore : ∀ name ∈ features, (store name).isNaN = false) :
    tree.Descends features .atMost store place leaf := by
  induction h with
  | leaf hleaf => exact .leaf hleaf
  | inner hinner htests hchild _ ih =>
    obtain ⟨feature, -, hname, hthreshold⟩ := id htests
    refine .inner hinner htests ?_ (ih (hplace.child hinner hchild))
    rw [Turn.atMost_eq_greater (hstore _ (List.mem_of_getElem? hname))
      (hnumeric.threshold hplace hinner hthreshold)]
    exact hchild

end

theorem majority?_eq_some {counts : List Float} {classIndex : Nat}
    (hcounts : ∀ count ∈ counts, count.isNaN = false) (h : majority? counts = some classIndex) :
    ∃ top, counts[classIndex]? = some top ∧
      (∀ earlier < classIndex, ∀ count, counts[earlier]? = some count → count < top) ∧
      ∀ count ∈ counts, count ≤ top := by
  obtain ⟨⟨top, index⟩, hbest, rfl⟩ := Option.map_eq_some_iff.mp h
  have hnumber {count : Float} {place : Nat} (hm : (count, place) ∈ counts.zipIdx) :
      count.isNaN = false := hcounts count (List.fst_mem_of_mem_zipIdx hm)
  have htop := mem_of_firstBest?_eq_some _ hbest
  have hgreatest : FirstGreatest (fun c : Float × Nat => Double.rank c.1.toModel.unpack)
      counts.zipIdx (top, index) :=
    firstBest?_firstGreatest (fun next hnext best hbest => by
      rw [decide_eq_true_iff, Double.lt_iff]
      exact ⟨fun h => h.2.2, fun h => ⟨hnumber hbest, hnumber hnext, h⟩⟩) hbest
  refine ⟨top, List.mem_zipIdx_iff_getElem?.mp htop, ?_, ?_⟩
  · obtain ⟨before, after, hsplit, hbefore, -⟩ := hgreatest
    intro earlier hlt count hcount
    have hplace : index = before.length := by
      have hat := congrArg (·[before.length]?) hsplit
      simp only [List.getElem?_zipIdx, List.getElem?_append_right le_rfl, Nat.sub_self,
        List.getElem?_cons_zero, Option.map_eq_some_iff, Prod.mk.injEq] at hat
      obtain ⟨_, -, -, hat⟩ := hat
      omega
    have hm : (count, earlier) ∈ before := by
      have hlt : earlier < before.length := hplace ▸ hlt
      have hat : before[earlier]? = some (count, earlier) := by
        rw [← List.getElem?_append_left hlt, ← hsplit, List.getElem?_zipIdx, hcount, Nat.zero_add,
          Option.map_some]
      exact List.mem_of_getElem? hat
    have hless := hbefore (count, earlier) hm
    exact Double.lt_iff.mpr ⟨hcounts count (List.mem_of_getElem? hcount), hnumber htop, hless⟩
  · intro count hcount
    obtain ⟨place, hplace⟩ := List.getElem?_of_mem hcount
    have hm : (count, place) ∈ counts.zipIdx := List.mem_zipIdx_iff_getElem?.mpr hplace
    have hle := hgreatest.le (count, place) hm
    exact Double.le_iff.mpr ⟨hnumber hm, hnumber htop, hle⟩

/-- The condition at a node makes the turn to the right. -/
theorem run_choice {name : String} {threshold : Float} (yes no : Rule) :
    (Rule.choice ⟨.var name, .greater, .real threshold⟩ yes no).run .doubles store =
      if Turn.greater (store name) threshold = .right then yes.run .doubles store
      else no.run .doubles store := by
  have hholds : Condition.holds .doubles store ⟨.var name, .greater, .real threshold⟩ =
      decide (threshold < store name) := rfl
  rw [Rule.run, Turn.greater, hholds]
  by_cases h : threshold < store name
  · simp only [h, decide_true, if_true]
  · simp only [h, decide_false, if_false, reduceCtorEq, Bool.false_eq_true]

variable {nodes : List TreeNode} {index : Fin nodes.length} {rule : Rule}
  {paths : List (List Turn × Fin nodes.length)}

/-- The rule of a subtree assigns the class of the leaf that its tests lead to. -/
theorem Unrolls.run_eq (h : Unrolls nodes features target index rule paths)
    (hz : tree.Zips nodes) :
    ∃ leaf counts classIndex, tree.Descends features .greater store index leaf ∧
      tree.counts[leaf]? = some counts ∧ majority? counts = some classIndex ∧
      rule.run .doubles store = [(target, Float.ofInt classIndex)] := by
  induction h with
  | @leaf index classIndex hleaf hclass =>
    have hcounts : tree.counts[index]? = some (nodes.get index).counts := by simp [hz.counts]
    exact ⟨index, _, classIndex, .leaf (hz.isLeaf_iff.mpr hleaf), hcounts, hclass, rfl⟩
  | @choice index left right feature yes no above below hinner hleft hright hfeature _ _ ihy ihn =>
    rw [place?_eq_some_iff] at hleft hright hfeature
    have hthreshold : tree.threshold[index]? = some (nodes.get index).threshold := by
      simp [hz.threshold]
    have htests : tree.Tests features index (features.get feature) (nodes.get index).threshold :=
      ⟨feature, by simp [hz.feature, ← hfeature], by simp, hthreshold⟩
    have hinner := hz.isInner_iff.mpr hinner
    rw [run_choice]
    cases hturn : Turn.greater (store (features.get feature)) (nodes.get index).threshold with
    | left =>
      obtain ⟨leaf, counts, classIndex, hd, hcounts, hclass, hrun⟩ := ihn
      have hchild : tree.childNumber? index .left = some (left : Int) :=
        hleft ▸ hz.childNumber?_left
      exact ⟨leaf, counts, classIndex, .inner hinner htests (hturn ▸ hchild) hd, hcounts, hclass,
        hrun⟩
    | right =>
      obtain ⟨leaf, counts, classIndex, hd, hcounts, hclass, hrun⟩ := ihy
      have hchild : tree.childNumber? index .right = some (right : Int) :=
        hright ▸ hz.childNumber?_right
      exact ⟨leaf, counts, classIndex, .inner hinner htests (hturn ▸ hchild) hd, hcounts, hclass,
        hrun⟩

/-- All that the rules of a tree do, given numbers for the features, is to assign the class of
exactly one leaf. Where thresholds and counts are numbers, as in all documents, it is the leaf that
the tree descends to, and the first of its classes of greatest count. -/
theorem unroll_predicts {tree : DecisionTree} {features : List String} {target : String}
    {rule : Rule} {store : String → Float} (hrule : tree.unroll features target = .ok rule)
    (hstore : ∀ name ∈ features, (store name).isNaN = false) :
    ∃ leaf counts classIndex,
      (∀ place, tree.Descends features .greater store 0 place ↔ place = leaf) ∧
      tree.counts[leaf]? = some counts ∧ majority? counts = some classIndex ∧
      rule.run .doubles store = [(target, Float.ofInt classIndex)] ∧
      (tree.Numeric ∨ tree.Documented →
        (∀ place, tree.Descends features .atMost store 0 place ↔ place = leaf) ∧
        tree.IsMajority leaf classIndex) := by
  obtain ⟨nodes, hz, paths, h, -⟩ := unroll_eq_ok_iff.mp hrule
  obtain ⟨leaf, counts, classIndex, hd, hcounts, hclass, hrun⟩ := h.run_eq hz
  refine ⟨leaf, counts, classIndex, fun _ => hd.iff_eq, hcounts, hclass, hrun, fun hnumbers => ?_⟩
  have hnumeric : tree.Numeric := hnumbers.elim id Documented.numeric
  have hroot : tree.Reached 0 := ⟨[], .here 0⟩
  obtain ⟨hreached, hleaf⟩ := hd.reached hroot
  obtain ⟨top, htop⟩ := majority?_eq_some (hnumeric.counts hreached hleaf hcounts) hclass
  exact ⟨fun _ => (hd.atMost hroot hnumeric hstore).iff_eq, counts, top, hcounts, htop⟩

/-- One test, of the first feature, with equally many samples on both sides of it. -/
def stump : DecisionTree where
  left := [1, -1, -1]
  right := [2, -1, -1]
  feature := [0, -2, -2]
  threshold := [0.5, -2, -2]
  counts := [[1, 1], [1, 0], [0, 1]]

theorem stump_numeric : stump.Numeric :=
  .of_forall (by decide +kernel) (by decide +kernel)

theorem unroll_predicts_stump : ∃ rule, stump.unroll ["x"] "y" = .ok rule ∧
    ∃ leaf classIndex, stump.Descends ["x"] .atMost (fun _ => 0.5) 0 leaf ∧
      stump.IsMajority leaf classIndex ∧
      rule.run .doubles (fun _ => 0.5) = [("y", Float.ofInt classIndex)] := by
  have hrule : stump.unroll ["x"] "y" = .ok (.choice ⟨.var "x", .greater, .real 0.5⟩
      (.leaf "y" 1) (.leaf "y" 0)) := rfl
  have hhalf : (0.5 : Float).isNaN = false := by decide +kernel
  have hstore : ∀ name ∈ ["x"], ((fun _ => 0.5 : String → Float) name).isNaN = false :=
    fun _ _ => hhalf
  obtain ⟨leaf, _, classIndex, -, -, -, hrun, hnumbers⟩ := unroll_predicts hrule hstore
  obtain ⟨hdescends, hmajority⟩ := hnumbers (.inl stump_numeric)
  exact ⟨_, hrule, leaf, classIndex, (hdescends leaf).mpr rfl, hmajority, hrun⟩

/-- The stump with a threshold that is not a number. -/
def blindStump : DecisionTree :=
  { stump with threshold := [0 / 0, -2, -2] }

/-- A leaf with a count that is not a number in front. -/
def uncounted : DecisionTree where
  left := [-1]
  right := [-1]
  feature := [-2]
  threshold := [-2]
  counts := [[0 / 0, 1]]

/-- The blind stump descends to the right, for every number, and its rules to the left. The rules of
the leaf assign the class that has no count. -/
theorem exists_unlike_prediction :
    (∃ rule, blindStump.unroll ["x"] "y" = .ok rule ∧
      blindStump.Descends ["x"] .atMost (fun _ => 0.5) 0 2 ∧ blindStump.IsMajority 2 1 ∧
      rule.run .doubles (fun _ => 0.5) = [("y", Float.ofInt 0)] ∧
      Float.ofInt 0 ≠ Float.ofInt 1) ∧
    ∃ rule, uncounted.unroll [] "y" = .ok rule ∧
      rule.run .doubles (fun _ => 0.5) = [("y", Float.ofInt 0)] ∧ ¬ uncounted.IsMajority 0 0 := by
  refine ⟨⟨.choice ⟨.var "x", .greater, .real (0 / 0)⟩ (.leaf "y" 1) (.leaf "y" 0), rfl, ?_, ?_,
    ?_, ?_⟩, .leaf "y" 0, rfl, rfl, ?_⟩
  · have htests : blindStump.Tests ["x"] 0 "x" (0 / 0) := ⟨0, rfl, rfl, rfl⟩
    exact .inner ⟨1, rfl, by decide⟩ htests (by decide +kernel) (.leaf rfl)
  · exact ⟨_, _, rfl, rfl, by decide +kernel, by decide +kernel⟩
  · decide +kernel
  · decide +kernel
  · rintro ⟨counts, top, hcounts, htop, -, hgreatest⟩
    cases hcounts
    cases htop
    exact absurd (hgreatest 1 (by simp)) (by decide +kernel)

end DecisionTree

end FairProgram
