import FairProgram.Classifier.Document
import FairProgram.Proofs.Classifier.Documents
import FairProgram.Proofs.Faults
import Mathlib

/-!
# Nested arrays of documents

A value that is read flat counts by the values in its arrays alone: it has its numbers from left to
right, or the fault of the first that is no number. How deep they are nested makes no difference to
a linear model, nor to the counts of a tree below their outermost array (`nesting_irrelevant`).
-/

namespace FairProgram

namespace Json

mutual
/-- The values in nested arrays that are no arrays, from left to right. -/
def leaves : Json → List Json
  | .array items => itemLeaves items
  | leaf => [leaf]
def itemLeaves : List Json → List Json
  | [] => []
  | item :: rest => item.leaves ++ itemLeaves rest
end

def IsNumber (value : Json) : Prop :=
  ∃ number, value = .number number

def readLeaf : Json → Except Json Float
  | .number value => .ok value.toFloat
  | other => .error other

section
variable {value leaf : Json} {x : Float} {numbers : List Float}

theorem exists_readLeaf_iff : (∃ x, leaf.readLeaf = .ok x) ↔ leaf.IsNumber := by
  cases leaf <;> simp [readLeaf, IsNumber]

theorem readLeaf_eq_error_iff {fault : Json} :
    leaf.readLeaf = .error fault ↔ ¬ leaf.IsNumber ∧ fault = leaf := by
  cases leaf <;> simp [readLeaf, IsNumber, eq_comm]

mutual
theorem flatten_eq_mapM : (value : Json) → value.flatten = value.leaves.mapM readLeaf
  | .array items => flattenItems_eq_mapM items
  | .number _ | .null | .bool _ | .string _ | .object _ => rfl
theorem flattenItems_eq_mapM :
    (items : List Json) → flattenItems items = (itemLeaves items).mapM readLeaf
  | [] => rfl
  | item :: rest => by
    rw [flattenItems, itemLeaves, List.mapM_append, flatten_eq_mapM item, flattenItems_eq_mapM rest]
end

theorem exists_readFlat_iff :
    (∃ numbers, value.readFlat = .ok numbers) ↔ ∀ leaf ∈ value.leaves, leaf.IsNumber := by
  simp only [← exists_readLeaf_iff, ← exists_mapM_iff, ← flatten_eq_mapM]
  rw [readFlat]
  cases value.flatten <;> simp [Except.mapError]

theorem readFlat_of_leaves {numbers : List JsonNumber} (h : value.leaves = numbers.map .number) :
    value.readFlat = .ok (numbers.map JsonNumber.toFloat) := by
  have hall : value.flatten = .ok (numbers.map JsonNumber.toFloat) := by
    rw [flatten_eq_mapM, mapM_eq_ok_iff, h, List.map_map, List.map_map]
    rfl
  rw [readFlat, hall]
  rfl

theorem readFlat_eq_error_iff {e : DocumentError} : value.readFlat = .error e ↔
    ∃ before leaf after, value.leaves = before ++ leaf :: after ∧
      (∀ other ∈ before, other.IsNumber) ∧ ¬ leaf.IsNumber ∧ e = .notNumeric leaf := by
  have hflatten : value.readFlat = .error e ↔
      ∃ leaf, value.flatten = .error leaf ∧ e = .notNumeric leaf := by
    rw [readFlat]
    cases value.flatten <;> simp [Except.mapError, eq_comm]
  simp only [hflatten, flatten_eq_mapM, mapM_eq_error_iff, FirstFault, readLeaf_eq_error_iff,
    exists_readLeaf_iff]
  constructor
  · rintro ⟨_, ⟨place, leaf, hleaf, ⟨hno, rfl⟩, hearlier⟩, rfl⟩
    obtain ⟨hlt, rfl⟩ := List.getElem?_eq_some_iff.mp hleaf
    refine ⟨value.leaves.take place, _, value.leaves.drop (place + 1), by simp, ?_, hno, rfl⟩
    intro other hother
    obtain ⟨earlier, hlt, rfl⟩ := List.mem_take_iff_getElem.mp hother
    exact hearlier earlier (by omega) _ (List.getElem?_eq_getElem _)
  · rintro ⟨before, leaf, after, hleaves, hbefore, hno, rfl⟩
    refine ⟨leaf, ⟨before.length, leaf, by simp [hleaves], ⟨hno, rfl⟩, ?_⟩, rfl⟩
    intro earlier hlt other hother
    rw [hleaves, List.getElem?_append_left hlt] at hother
    exact hbefore other (List.mem_of_getElem? hother)

/-- Of several leaves that are no numbers the first is the fault, however deep it is. -/
example : (Json.array [.array [.number (.int 1), .array [.null]], .string "one"]).readFlat =
    .error (.notNumeric .null) := by
  rfl

theorem readSingle_eq_ok_iff : value.readSingle = .ok x ↔ value.readFlat = .ok [x] := by
  rw [readSingle]
  rcases value.readFlat with e | ⟨_ | ⟨first, _ | ⟨second, rest⟩⟩⟩ <;>
    simp [bind, Except.bind, pure, Except.pure, throw, throwThe, MonadExceptOf.throw]

theorem readSingle_eq_error_iff {e : DocumentError} : value.readSingle = .error e ↔
    value.readFlat = .error e ∨
      ∃ numbers, value.readFlat = .ok numbers ∧ numbers.length ≠ 1 ∧ e = .notSingle numbers.length := by
  rw [readSingle]
  rcases value.readFlat with e | ⟨_ | ⟨first, _ | ⟨second, rest⟩⟩⟩ <;>
    simp [bind, Except.bind, pure, Except.pure, throw, throwThe, MonadExceptOf.throw, eq_comm]

/-- An array of values that are read flat has a list of numbers for each of them. -/
theorem readArray_readFlat_iff {lists : List (List Float)} :
    value.readArray readFlat = .ok lists ↔
      ∃ items, value = .array items ∧ List.Forall₂ (readFlat · = .ok ·) items lists := by
  cases value with
  | array items =>
    rw [readArray, mapM_eq_ok_iff_forall₂]
    simp
  | _ => simp [readArray]

theorem readArray_congr {items others : List Json} (h : items.map leaves = others.map leaves) :
    (Json.array items).readArray readFlat = (Json.array others).readArray readFlat := by
  have hmap (items : List Json) : items.mapM readFlat =
      (items.map leaves).mapM fun values => (values.mapM readLeaf).mapError .notNumeric := by
    rw [List.mapM_map]
    simp only [Function.comp_def, ← flatten_eq_mapM]
    rfl
  rw [readArray, readArray, hmap, hmap, h]

end

section
variable {α : Type} {members : List (String × Json)} {key : String}
  {read : Json → Except DocumentError α} {a : α}

theorem readMember?_eq_some_iff : readMember? members key read = .ok (some a) ↔
    ∃ value, member? key members = some value ∧ read value = .ok a := by
  rw [readMember?]
  cases member? key members with
  | none => simp
  | some value => cases hread : read value <;> simp [hread, bind, Except.bind, pure, Except.pure]

end

end Json

section
variable {members : List (String × Json)}

/-- Weights and an intercept, each nested in whatever way. -/
structure LinearModel.Spelled (members : List (String × Json)) (weights intercepts : List Float) :
    Prop where
  weights : ∃ value, Json.member? "coef" members = some value ∧ value.readFlat = .ok weights
  intercepts :
    ∃ value, Json.member? "intercept" members = some value ∧ value.readFlat = .ok intercepts

open Json in
theorem LinearModel.ofMembers_eq_ok_iff {weights intercepts : List Float} {model : LinearModel}
    (h : Spelled members weights intercepts) : LinearModel.ofMembers members = .ok model ↔
      ∃ intercept, intercepts = [intercept] ∧ model = ⟨weights, intercept⟩ := by
  obtain ⟨hweights, intercept, hmember, hintercept⟩ := h
  rw [LinearModel.ofMembers, readMember?_eq_some_iff.mpr hweights, readMember?, hmember]
  simp only [readSingle, hintercept]
  rcases intercepts with _ | ⟨first, _ | ⟨second, rest⟩⟩ <;>
    simp [bind, Except.bind, pure, Except.pure, throw, throwThe, MonadExceptOf.throw, requireMember,
      eq_comm]

/-- The arrays of a tree. The counts of a node may be nested below the array of all nodes. -/
structure DecisionTree.Spelled (members : List (String × Json)) (tree : DecisionTree) : Prop where
  left : ∃ value, Json.member? "children_left" members = some value ∧
    value.readArray Json.readInt = .ok tree.left
  right : ∃ value, Json.member? "children_right" members = some value ∧
    value.readArray Json.readInt = .ok tree.right
  feature : ∃ value, Json.member? "feature" members = some value ∧
    value.readArray Json.readInt = .ok tree.feature
  threshold : ∃ value, Json.member? "threshold" members = some value ∧
    value.readArray Json.readFloat = .ok tree.threshold
  counts : ∃ nodes, Json.member? "value" members = some (.array nodes) ∧
    List.Forall₂ (fun node counts => node.readFlat = .ok counts) nodes tree.counts

open Json in
theorem DecisionTree.ofMembers_eq_ok_iff {tree : DecisionTree} :
    DecisionTree.ofMembers members = .ok tree ↔ Spelled members tree := by
  constructor
  · intro h
    obtain ⟨left?, hleft, h⟩ := bind_ok h
    obtain ⟨right?, hright, h⟩ := bind_ok h
    obtain ⟨feature?, hfeature, h⟩ := bind_ok h
    obtain ⟨threshold?, hthreshold, h⟩ := bind_ok h
    obtain ⟨counts?, hcounts, h⟩ := bind_ok h
    obtain ⟨left, hsome, h⟩ := bind_ok h
    rw [requireMember_ok hsome] at hleft
    obtain ⟨right, hsome, h⟩ := bind_ok h
    rw [requireMember_ok hsome] at hright
    obtain ⟨feature, hsome, h⟩ := bind_ok h
    rw [requireMember_ok hsome] at hfeature
    obtain ⟨threshold, hsome, h⟩ := bind_ok h
    rw [requireMember_ok hsome] at hthreshold
    obtain ⟨counts, hsome, h⟩ := bind_ok h
    rw [requireMember_ok hsome] at hcounts
    cases h
    obtain ⟨value, hvalue, hread⟩ := readMember?_eq_some_iff.mp hcounts
    obtain ⟨nodes, rfl, hlists⟩ := readArray_readFlat_iff.mp hread
    exact ⟨readMember?_eq_some_iff.mp hleft, readMember?_eq_some_iff.mp hright,
      readMember?_eq_some_iff.mp hfeature, readMember?_eq_some_iff.mp hthreshold,
      nodes, hvalue, hlists⟩
  · rintro ⟨hleft, hright, hfeature, hthreshold, nodes, hvalue, hcounts⟩
    have hcounts : readMember? members "value" (readArray readFlat) = .ok (some tree.counts) :=
      readMember?_eq_some_iff.mpr ⟨_, hvalue, readArray_readFlat_iff.mpr ⟨nodes, rfl, hcounts⟩⟩
    rw [DecisionTree.ofMembers, readMember?_eq_some_iff.mpr hleft,
      readMember?_eq_some_iff.mpr hright, readMember?_eq_some_iff.mpr hfeature,
      readMember?_eq_some_iff.mpr hthreshold, hcounts]
    rfl

namespace Classifier

variable {name : String} {c : Classifier}

theorem ofJson_linear_iff (hname : kindName? members = some name)
    (hkind : ClassifierKind.ofName name = .linear) : ofJson (.object members) = .ok c ↔
      ∃ model, LinearModel.ofMembers members = .ok model ∧ c = .linear model := by
  rw [ofJson, hname]
  simp only [hkind]
  cases LinearModel.ofMembers members <;> simp [Except.map, Except.mapError, eq_comm]

theorem ofJson_tree_iff (hname : kindName? members = some name)
    (hkind : ClassifierKind.ofName name = .tree) : ofJson (.object members) = .ok c ↔
      ∃ tree, DecisionTree.ofMembers members = .ok tree ∧ c = .tree tree := by
  rw [ofJson, hname]
  simp only [hkind]
  cases DecisionTree.ofMembers members <;> simp [Except.map, Except.mapError, eq_comm]

/-- A document of a linear model whose members flatten to these numbers. -/
inductive IsLinear (weights intercepts : List Float) : Json → Prop
  | of {members : List (String × Json)} {name : String} :
    kindName? members = some name → ClassifierKind.ofName name = .linear →
    LinearModel.Spelled members weights intercepts → IsLinear weights intercepts (.object members)

theorem IsLinear.ofJson_iff {weights intercepts : List Float} {document : Json}
    (h : IsLinear weights intercepts document) : ofJson document = .ok c ↔
      ∃ intercept, intercepts = [intercept] ∧ c = .linear ⟨weights, intercept⟩ := by
  cases h with
  | of hname hkind hspelled =>
    rw [ofJson_linear_iff hname hkind]
    simp only [LinearModel.ofMembers_eq_ok_iff hspelled]
    constructor
    · rintro ⟨_, ⟨intercept, hone, rfl⟩, hc⟩
      exact ⟨intercept, hone, hc⟩
    · rintro ⟨intercept, hone, hc⟩
      exact ⟨_, ⟨intercept, hone, rfl⟩, hc⟩

/-- A value read flat is its numbers from left to right, or the fault of the first leaf that is none,
and a single number is one that is flat a list of one. So a linear model has the numbers of its
document, and a tree a list of counts for each node, however deep their arrays are nested. -/
theorem nesting_irrelevant :
    (∀ value : Json,
      ((∃ numbers, value.readFlat = .ok numbers) ↔ ∀ leaf ∈ value.leaves, leaf.IsNumber) ∧
      (∀ numbers : List JsonNumber, value.leaves = numbers.map .number →
        value.readFlat = .ok (numbers.map JsonNumber.toFloat)) ∧
      (∀ e, value.readFlat = .error e ↔ ∃ before leaf after,
        value.leaves = before ++ leaf :: after ∧ (∀ other ∈ before, other.IsNumber) ∧
          ¬ leaf.IsNumber ∧ e = .notNumeric leaf) ∧
      (∀ x, value.readSingle = .ok x ↔ value.readFlat = .ok [x]) ∧
      ∀ e, value.readSingle = .error e ↔ value.readFlat = .error e ∨
        ∃ numbers, value.readFlat = .ok numbers ∧ numbers.length ≠ 1 ∧
          e = .notSingle numbers.length) ∧
    (∀ leaf, (DocumentError.notNumeric leaf).message =
      "expected number or array, got " ++ leaf.compact) ∧
    (∀ weights intercepts document, IsLinear weights intercepts document →
      (∀ c, ofJson document = .ok c ↔
        ∃ intercept, intercepts = [intercept] ∧ c = .linear ⟨weights, intercept⟩) ∧
      ∀ other, IsLinear weights intercepts other →
        ∀ c, ofJson document = .ok c ↔ ofJson other = .ok c) ∧
    (∀ members name, kindName? members = some name → ClassifierKind.ofName name = .tree →
      ∀ c, ofJson (.object members) = .ok c ↔
        ∃ tree, c = .tree tree ∧ DecisionTree.Spelled members tree) ∧
    ∀ nodes others : List Json, nodes.map Json.leaves = others.map Json.leaves →
      (Json.array nodes).readArray Json.readFlat = (Json.array others).readArray Json.readFlat := by
  refine ⟨fun value => ⟨Json.exists_readFlat_iff, fun _ => Json.readFlat_of_leaves,
    fun _ => Json.readFlat_eq_error_iff, fun _ => Json.readSingle_eq_ok_iff,
    fun _ => Json.readSingle_eq_error_iff⟩, fun _ => rfl, ?_, ?_, fun _ _ => Json.readArray_congr⟩
  · intro weights intercepts document h
    exact ⟨fun c => h.ofJson_iff, fun other hother c => h.ofJson_iff.trans hother.ofJson_iff.symm⟩
  · intro members name hname hkind c
    rw [ofJson_tree_iff hname hkind]
    simp only [DecisionTree.ofMembers_eq_ok_iff]
    exact exists_congr fun tree => and_comm

/-- The document of a linear model whose kind has this name. -/
def linearDocument (name : String) (weights intercept : Json) : Json :=
  .object [("coef", weights), ("intercept", intercept), ("kind", .string name)]

/-- Weights and an intercept with an axis of their own make the model that they make without. -/
theorem nesting_irrelevant_axes :
    IsLinear [Float.ofInt 1, Float.ofInt (-2)] [Float.ofInt 3] (linearDocument "linear"
      (.array [.array [.number (.int 1), .number (.int (-2))]]) (.array [.number (.int 3)])) ∧
    IsLinear [Float.ofInt 1, Float.ofInt (-2)] [Float.ofInt 3] (linearDocument "LinearSVC"
      (.array [.number (.int 1), .number (.int (-2))]) (.number (.int 3))) ∧
    ∃ c, ofJson (linearDocument "linear"
        (.array [.array [.number (.int 1), .number (.int (-2))]]) (.array [.number (.int 3)])) =
          .ok c ∧
      ofJson (linearDocument "LinearSVC"
        (.array [.number (.int 1), .number (.int (-2))]) (.number (.int 3))) = .ok c := by
  have hnested : IsLinear [Float.ofInt 1, Float.ofInt (-2)] [Float.ofInt 3]
      (linearDocument "linear" (.array [.array [.number (.int 1), .number (.int (-2))]])
        (.array [.number (.int 3)])) :=
    .of rfl rfl ⟨⟨_, rfl, rfl⟩, ⟨_, rfl, rfl⟩⟩
  have hflat : IsLinear [Float.ofInt 1, Float.ofInt (-2)] [Float.ofInt 3]
      (linearDocument "LinearSVC" (.array [.number (.int 1), .number (.int (-2))])
        (.number (.int 3))) :=
    .of rfl rfl ⟨⟨_, rfl, rfl⟩, ⟨_, rfl, rfl⟩⟩
  obtain ⟨hload, hsame⟩ := nesting_irrelevant.2.2.1 _ _ _ hnested
  have hloaded := (hload _).mpr ⟨_, rfl, rfl⟩
  exact ⟨hnested, hflat, _, hloaded, (hsame _ hflat _).mp hloaded⟩

end Classifier

end

end FairProgram
