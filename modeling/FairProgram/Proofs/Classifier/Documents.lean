import FairProgram.Classifier.Document
import FairProgram.Proofs.Classifier.Stages
import FairProgram.Proofs.Classifier.Trees
import FairProgram.Proofs.Faults
import FairProgram.Proofs.Json.Numbers
import Mathlib

/-!
# Trees read from documents

The thresholds and counts of every tree in a document are numbers (`ofBytes_numeric`), also of trees
that are stages of nested pipelines.
-/

namespace FairProgram

theorem map_ok {ε α β : Type} {f : α → β} {x : Except ε α} {b : β} (h : x.map f = .ok b) :
    ∃ a, x = .ok a ∧ f a = b := by
  cases x with
  | error e => cases h
  | ok a =>
    cases h
    exact ⟨a, rfl, rfl⟩

namespace Json

variable {α : Type} {P : α → Prop}

mutual
theorem isNaN_flatten : (value : Json) → value.Numeric → ∀ {values : List Float},
    value.flatten = .ok values → ∀ v ∈ values, v.isNaN = false
  | .number _, hn, _, h => by
    cases hn with | number hn =>
    cases h
    exact List.forall_mem_singleton.mpr hn
  | .array items, hn, _, h => by
    cases hn with | array hn =>
    exact isNaN_flattenItems items hn h
  | .null, _, _, h | .bool _, _, _, h | .string _, _, _, h | .object _, _, _, h => by cases h
theorem isNaN_flattenItems : (items : List Json) → (∀ item ∈ items, item.Numeric) →
    ∀ {values : List Float}, flattenItems items = .ok values → ∀ v ∈ values, v.isNaN = false
  | [], _, _, h => by
    cases h
    exact List.forall_mem_nil _
  | item :: rest, hn, _, h => by
    obtain ⟨hitem, hrest⟩ := List.forall_mem_cons.mp hn
    obtain ⟨head, hhead, h⟩ := bind_ok h
    obtain ⟨tail, htail, h⟩ := bind_ok h
    cases h
    exact List.forall_mem_append.mpr
      ⟨isNaN_flatten item hitem hhead, isNaN_flattenItems rest hrest htail⟩
end

theorem isNaN_readFloat {value : Json} (hn : value.Numeric) {x : Float}
    (h : value.readFloat = .ok x) : x.isNaN = false := by
  cases hn with
  | number hn =>
    cases h
    exact hn
  | _ => cases h

theorem isNaN_readFlat {value : Json} (hn : value.Numeric) {values : List Float}
    (h : value.readFlat = .ok values) : ∀ v ∈ values, v.isNaN = false :=
  isNaN_flatten value hn (mapError_ok h)

theorem forall_mem_of_mapM {ι ε : Type} {f : ι → Except ε α} {items : List ι} {results : List α}
    (h : items.mapM f = .ok results)
    (hf : ∀ item ∈ items, ∀ result, f item = .ok result → P result) :
    ∀ result ∈ results, P result := by
  intro result hresult
  obtain ⟨item, hitem, hok⟩ := List.mem_map.mp
    (mapM_eq_ok_iff.mp h ▸ List.mem_map_of_mem hresult : Except.ok result ∈ items.map f)
  exact hf item hitem result hok

theorem forall_mem_of_readArray {read : Json → Except DocumentError α} {value : Json}
    (hn : value.Numeric) {results : List α} (h : value.readArray read = .ok results)
    (hread : ∀ {item : Json} {result}, item.Numeric → read item = .ok result → P result) :
    ∀ result ∈ results, P result := by
  cases hn with
  | array hn => exact forall_mem_of_mapM h fun item hitem _ => hread (hn item hitem)
  | _ => cases h

/-- A member that is there was read from one of the members. -/
theorem readMember?_some {members : List (String × Json)} {key : String}
    {read : Json → Except DocumentError α} {a : α}
    (hn : ∀ member ∈ members, member.2.Numeric) (h : readMember? members key read = .ok (some a)) :
    ∃ value : Json, value.Numeric ∧ read value = .ok a := by
  unfold readMember? at h
  split at h
  · cases h
  · rename_i value hvalue
    obtain ⟨member, hmember, rfl⟩ := Option.map_eq_some_iff.mp hvalue
    obtain ⟨a, hread, h⟩ := bind_ok h
    cases h
    exact ⟨member.2, hn member (List.mem_of_find?_eq_some hmember), hread⟩

end Json

theorem requireMember_ok {α : Type} {key : String} {a? : Option α} {a : α}
    (h : requireMember key a? = .ok a) : a? = some a := by
  cases a? with
  | none => cases h
  | some a =>
    cases h
    rfl

namespace DecisionTree

/-- The nodes that can be come to test against numbers, and their leaves count in numbers. -/
structure Numeric (tree : DecisionTree) : Prop where
  threshold : ∀ {place threshold}, tree.Reached place → tree.IsInner place →
    tree.threshold[place]? = some threshold → threshold.isNaN = false
  counts : ∀ {place counts}, tree.Reached place → tree.IsLeaf place →
    tree.counts[place]? = some counts → ∀ count ∈ counts, count.isNaN = false

theorem Numeric.of_forall {tree : DecisionTree}
    (hthreshold : ∀ threshold ∈ tree.threshold, threshold.isNaN = false)
    (hcounts : ∀ counts ∈ tree.counts, ∀ count ∈ counts, count.isNaN = false) : tree.Numeric where
  threshold _ _ h := hthreshold _ (List.mem_of_getElem? h)
  counts _ _ h := hcounts _ (List.mem_of_getElem? h)

open Json in
theorem ofMembers_numeric {members : List (String × Json)} {tree : DecisionTree}
    (hn : ∀ member ∈ members, member.2.Numeric) (h : DecisionTree.ofMembers members = .ok tree) :
    tree.Numeric := by
  obtain ⟨left, -, h⟩ := bind_ok h
  obtain ⟨right, -, h⟩ := bind_ok h
  obtain ⟨feature, -, h⟩ := bind_ok h
  obtain ⟨threshold?, hthreshold, h⟩ := bind_ok h
  obtain ⟨counts?, hcounts, h⟩ := bind_ok h
  obtain ⟨_, -, h⟩ := bind_ok h
  obtain ⟨_, -, h⟩ := bind_ok h
  obtain ⟨_, -, h⟩ := bind_ok h
  obtain ⟨threshold, hsome, h⟩ := bind_ok h
  rw [requireMember_ok hsome] at hthreshold
  obtain ⟨counts, hsome, h⟩ := bind_ok h
  rw [requireMember_ok hsome] at hcounts
  cases h
  obtain ⟨value, hvalue, hthreshold⟩ := readMember?_some hn hthreshold
  obtain ⟨value', hvalue', hcounts⟩ := readMember?_some hn hcounts
  exact .of_forall
    (forall_mem_of_readArray hvalue hthreshold fun hitem h => isNaN_readFloat hitem h)
    (forall_mem_of_readArray hvalue' hcounts fun hitem h => isNaN_readFlat hitem h)

end DecisionTree

namespace Classifier

/-- All trees among the stages of a classifier are numeric. -/
def NumericTrees (stages : List Classifier) : Prop :=
  ∀ t, Classifier.tree t ∈ stages → t.Numeric

mutual
theorem ofJson_numeric : (value : Json) → value.Numeric → ∀ {c : Classifier},
    ofJson value = .ok c → NumericTrees c.stages
  | .object members, hn, c, h => by
    cases hn with | object hn =>
    unfold ofJson at h
    split at h
    · cases h
    have h := mapError_ok h
    split at h
    · obtain ⟨tree, htree, rfl⟩ := map_ok h
      intro t ht
      cases List.mem_singleton.mp ht
      exact DecisionTree.ofMembers_numeric hn htree
    · obtain ⟨_, -, rfl⟩ := map_ok h
      exact fun t ht => by simp [stages] at ht
    · obtain ⟨_, -, rfl⟩ := map_ok h
      exact fun t ht => by simp [stages] at ht
    · obtain ⟨_, -, rfl⟩ := map_ok h
      exact fun t ht => by simp [stages] at ht
    · obtain ⟨steps, hsteps, rfl⟩ := map_ok h
      exact stepsOf_numeric members hn hsteps
    · cases h
      exact fun t ht => by simp [stages] at ht
  | .null, _, _, h | .bool _, _, _, h | .number _, _, _, h | .string _, _, _, h
  | .array _, _, _, h => by cases h
theorem stepsOf_numeric : (members : List (String × Json)) →
    (∀ member ∈ members, member.2.Numeric) → ∀ {steps : List Classifier},
    stepsOf members = .ok steps → NumericTrees (allStages steps)
  | [], _, _, h => by cases h
  | (key, value) :: rest, hn, _, h => by
    obtain ⟨hvalue, hrest⟩ := List.forall_mem_cons.mp hn
    unfold stepsOf at h
    split at h
    · split at h
      · cases hvalue with | array hitems =>
        exact ofItems_numeric _ hitems h
      · cases h
    · exact stepsOf_numeric rest hrest h
theorem ofItems_numeric : (items : List Json) → (∀ item ∈ items, item.Numeric) →
    ∀ {steps : List Classifier}, ofItems items = .ok steps → NumericTrees (allStages steps)
  | [], _, _, h => by
    cases h
    exact nofun
  | item :: rest, hn, _, h => by
    obtain ⟨hitem, hrest⟩ := List.forall_mem_cons.mp hn
    obtain ⟨first, hfirst, h⟩ := bind_ok h
    obtain ⟨others, hothers, h⟩ := bind_ok h
    cases h
    intro t ht
    obtain ht | ht := List.mem_append.mp ht
    · exact ofJson_numeric item hitem hfirst t ht
    · exact ofItems_numeric rest hrest hothers t ht
end

/-- The trees of a document are numeric, at whatever depth of pipelines they are. -/
theorem ofBytes_numeric {document : List UInt8} {c : Classifier} (h : ofBytes document = .ok c) :
    NumericTrees c.stages := by
  obtain ⟨⟨value, rest⟩, hvalue, h⟩ := bind_ok h
  obtain ⟨c, hc, h⟩ := bind_ok h
  obtain ⟨_, -, h⟩ := bind_ok h
  cases h
  exact ofJson_numeric value (Json.numeric_readPrefix (mapError_ok hvalue)) hc

end Classifier

/-- Trees that are read from documents, alone or as stages of pipelines. -/
def DecisionTree.Documented (tree : DecisionTree) : Prop :=
  ∃ document c, Classifier.ofBytes document = .ok c ∧ .tree tree ∈ c.stages

theorem DecisionTree.Documented.numeric {tree : DecisionTree} (h : tree.Documented) :
    tree.Numeric := by
  obtain ⟨document, c, hread, hmem⟩ := h
  exact Classifier.ofBytes_numeric hread tree hmem

end FairProgram
