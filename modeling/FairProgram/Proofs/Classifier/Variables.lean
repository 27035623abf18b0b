import FairProgram.Proofs.Classifier.Unrolling
import FairProgram.Proofs.Rule.Paths

/-!
# Variables of unrolled classifiers

Neurons, scaled features and the target are assigned before they are read, and the features that a
stage passes on are assigned by its end. Pipelines follow by composition, so that the rules of any
classifier read nothing that is neither a feature nor assigned before (`unroll_supplied`).
-/

namespace FairProgram

variable {known features inputs : List String} {target name : String}

-- ---------------------------------------------------------------------------
-- Single stages
-- ---------------------------------------------------------------------------

theorem Rule.IsTree.provides {rule : Rule} (h : rule.IsTree features target) :
    Provides features rule.paths features := by
  induction h with
  | leaf classIndex => exact (provides_write target).mono (List.subset_cons_self _ _)
  | choice threshold hf _ _ ihyes ihno =>
    exact provides_choice (by simpa [Condition.reads, Expr.reads] using hf) ihyes ihno

theorem Expr.reads_sum {terms : List Expr} (h : ∀ e ∈ terms, e.reads ⊆ known) :
    (sum terms).reads ⊆ known :=
  sum_induction (motive := fun e => e.reads ⊆ known) (List.nil_subset known) h
    fun hleft hright => List.append_subset.mpr ⟨hleft, h _ hright⟩

theorem Expr.reads_weightedSum (names : List String) (weights : List Float) :
    (weightedSum names weights).reads ⊆ names := by
  apply reads_sum
  intro e he
  obtain ⟨⟨name, weight⟩, hmem, rfl⟩ := List.mem_map.mp he
  simpa [reads] using (List.of_mem_zip hmem).1

/-- Adding a constant to a variable reads and assigns that variable. -/
theorem Statement.provides_addConstant (hn : name ∈ known) (constant : Float) :
    Provides known (Rule.statementPaths [addConstant name constant]) known :=
  (Rule.provides_assign (by simpa [Expr.reads] using hn)).mono (List.subset_cons_self _ _)

theorem Statement.provides_linear (hi : inputs ⊆ known) (weights : List Float) (constant : Float) :
    Provides known (Rule.statementPaths (linear name inputs weights constant)) (name :: known) := by
  have hsum := List.Subset.trans (Expr.reads_weightedSum inputs weights) hi
  exact Rule.provides_append (Rule.provides_assign hsum)
    (provides_addConstant List.mem_cons_self constant)

theorem Activation.provides_statements (hn : name ∈ known) (activation : Activation) :
    Provides known (Rule.statementPaths (activation.statements name)) known := by
  cases activation with
  | relu =>
    have hzero : (Expr.int 0).reads ⊆ known := List.nil_subset known
    have hreset : Provides known (Rule.statementPaths [.assign name (.int 0)]) known :=
      (Rule.provides_assign hzero).mono (List.subset_cons_self _ _)
    apply Rule.provides_rule
    apply Rule.provides_guarded
    · simpa [Condition.reads, Expr.reads] using hn
    · simpa [Rule.paths] using hreset
  | logistic =>
    exact (Rule.provides_assign (by simpa [Expr.reads] using hn)).mono (List.subset_cons_self _ _)
  | identity | unsupported => exact Rule.provides_nil

namespace Perceptron

theorem provides_neuron (hi : inputs ⊆ known) (weights : List Float) (bias : Float)
    (activation : Activation) :
    Provides known (Rule.statementPaths (neuronStatements name inputs weights bias activation))
      (name :: known) :=
  Rule.provides_append (Statement.provides_linear hi weights bias)
    (activation.provides_statements List.mem_cons_self)

/-- A layer assigns each of its neurons. -/
theorem provides_layer {names : List String} {neurons : List (List Float)} {biases : List Float}
    (hi : inputs ⊆ known) (activation : Activation) (hn : names.length = neurons.length)
    (hb : biases.length = neurons.length) :
    Provides known (Rule.statementPaths (layer inputs names neurons biases activation))
      (names ++ known) := by
  induction names generalizing neurons biases known with
  | nil => exact Rule.provides_nil
  | cons name names ih =>
    cases neurons with
    | nil => cases hn
    | cons weights neurons =>
      cases biases with
      | nil => cases hb
      | cons bias biases =>
        have hrest := ih (List.subset_cons_of_subset name hi) (Nat.succ.inj hn) (Nat.succ.inj hb)
        refine (Rule.provides_append (provides_neuron hi weights bias activation) hrest).mono ?_
        simp [List.cons_subset]

/-- The layers from one on assign the target, if there are any. -/
theorem provides_layers {network : Perceptron} {place : Nat}
    {layers : List (List (List Float) × List Float)} {statements : List Statement}
    (hi : inputs ⊆ known) (hne : layers ≠ [])
    (h : layerStatements network target place inputs layers = .ok statements) :
    Provides known (Rule.statementPaths statements) (target :: known) := by
  induction layers generalizing place inputs known statements with
  | nil => exact absurd rfl hne
  | cons first rest ih =>
    obtain ⟨names, neurons, activation, later, rfl, hlater, hn, hb, hlast, -⟩ :=
      layerStatements_cons_ok h
    have hlayer := provides_layer hi activation hn hb
    cases rest with
    | nil =>
      cases hlater
      simpa [hlast rfl] using hlayer
    | cons next rest =>
      have hrest := ih (List.subset_append_left names known) (List.cons_ne_nil _ _) hlater
      refine (Rule.provides_append hlayer hrest).mono ?_
      simp [List.cons_subset]

theorem provides {network : Perceptron} {offset : Option Float} {rule : Rule}
    (h : network.unroll features target offset = .ok rule) :
    Provides features rule.paths features := by
  obtain ⟨layers, statements, hne, -, hlayers, rfl⟩ := unroll_ok h
  have hstatements := provides_layers (List.Subset.refl features) hne hlayers
  have hshift : Provides (target :: features)
      (Rule.statementPaths (offset.map (Statement.addConstant target)).toList)
      (target :: features) := by
    cases offset with
    | none => exact Rule.provides_nil
    | some value => exact Statement.provides_addConstant List.mem_cons_self value
  have hall := (Rule.provides_append hstatements hshift).mono (List.subset_cons_self _ _)
  simpa [Rule.paths] using hall

end Perceptron

/-- A scaler assigns each of the features that it passes on. -/
theorem Scaler.provides {scaler : Scaler} {e : Unrolled} (h : scaler.unroll features = .ok e) :
    Provides features e.rules.paths e.features := by
  obtain ⟨means, scales, hm, hs, rfl⟩ := unroll_ok h
  suffices hall : ∀ known, features ⊆ known → Provides known
      (Rule.statementPaths (statements features means scales))
      (features.map scaledName ++ known) from
    (hall features (List.Subset.refl _)).mono (List.subset_append_left _ _)
  clear h
  induction features generalizing means scales with
  | nil => exact fun known _ => Rule.provides_nil
  | cons feature features ih =>
    cases means with
    | nil => cases hm
    | cons mean means =>
      cases scales with
      | nil => cases hs
      | cons scale scales =>
        intro known hk
        obtain ⟨hf, hk⟩ := List.cons_subset.mp hk
        have hfirst : Provides known (Rule.statementPaths [statement feature mean scale])
            (scaledName feature :: known) :=
          Rule.provides_assign (by simpa [Expr.reads] using hf)
        have hrest := ih means scales (Nat.succ.inj hm) (Nat.succ.inj hs)
          (scaledName feature :: known) (List.subset_cons_of_subset _ hk)
        refine (Rule.provides_append hfirst hrest).mono ?_
        simp [List.cons_subset]

-- ---------------------------------------------------------------------------
-- Classifiers
-- ---------------------------------------------------------------------------

namespace Classifier

variable {p : Params} {e : Unrolled}

theorem unroll_provides (c : Classifier) (h : c.unroll p target features = .ok e) :
    Provides features e.rules.paths e.features := by
  refine unroll_induction
    (motive := fun features e => Provides features e.rules.paths e.features)
    (fun h => h.provides) (fun h => ?_) Perceptron.provides Scaler.provides (fun h h' => ?_) c h
  · obtain rfl := LinearModel.unroll_ok h
    exact (Statement.provides_linear (List.Subset.refl _) _ _).mono (List.subset_cons_self _ _)
  · rw [Rule.paths_andThen]
    exact h.append h'

/-- On every path through the rules of a classifier each variable that is read is a feature or
assigned before, and the features visible behind them are given features or assigned. -/
theorem unroll_supplied (c : Classifier) (h : c.unroll p target features = .ok e) :
    e.rules.paths ≠ [] ∧ ∀ path ∈ e.rules.paths,
      (∀ before name after, path = before ++ .read name :: after →
        name ∈ features ∨ .write name ∈ before) ∧
      ∀ name ∈ e.features, name ∈ features ∨ .write name ∈ path :=
  ⟨e.rules.paths_ne_nil, fun path hp => c.unroll_provides h path hp⟩

/-- A scaler in front of a nested pipeline with a perceptron of two layers. -/
def scaledNetwork : Classifier :=
  .pipeline [.scaler ⟨some [0.5], some [2]⟩,
    .pipeline [.perceptron ⟨[[[1, -1]], [[1], [0.25]]], [[0, 0.5], [-1]], .relu, .logistic⟩]]

theorem exists_unroll_scaledNetwork :
    ∃ e, scaledNetwork.unroll {} "label" ["x"] = .ok e ∧ e.features = ["scaled_x"] :=
  ⟨_, rfl, rfl⟩

theorem unroll_supplied_scaledNetwork :
    ∃ e, scaledNetwork.unroll {} "label" ["x"] = .ok e ∧ e.features = ["scaled_x"] ∧
      e.rules.paths ≠ [] ∧ ∀ path ∈ e.rules.paths,
        (∀ before name after, path = before ++ .read name :: after →
          name ∈ ["x"] ∨ .write name ∈ before) ∧
        ∀ name ∈ e.features, name ∈ ["x"] ∨ .write name ∈ path := by
  obtain ⟨e, h, hfeatures⟩ := exists_unroll_scaledNetwork
  exact ⟨e, h, hfeatures, unroll_supplied scaledNetwork h⟩

end Classifier

end FairProgram
