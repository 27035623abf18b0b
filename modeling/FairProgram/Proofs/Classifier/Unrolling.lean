import FairProgram.Classifier.Unroll

/-!
# What unrolling returns

The rules of a tree, of a linear model, of a perceptron's layers and of a scaler, where unrolling
returns any (`_ok`), and the rules of pipelines nested to any depth as an induction over their stages
(`Classifier.unroll_induction`).
-/

namespace FairProgram

section
variable {ε α β : Type}

theorem bind_ok {x : Except ε α} {f : α → Except ε β} {b : β} (h : (x >>= f) = .ok b) :
    ∃ a, x = .ok a ∧ f a = .ok b := by
  cases x with
  | error e => cases h
  | ok a => exact ⟨a, rfl, h⟩

theorem mapError_ok {ε' : Type} {f : ε → ε'} {x : Except ε α} {a : α}
    (h : x.mapError f = .ok a) : x = .ok a := by
  cases x with
  | error e => cases h
  | ok a =>
    cases h
    rfl

end

theorem expectCount_ok {what : String} {expected found : Nat}
    (h : expectCount what expected found = .ok ()) : found = expected := by
  unfold expectCount at h
  split at h
  · assumption
  · cases h

-- ---------------------------------------------------------------------------
-- Decision trees
-- ---------------------------------------------------------------------------

/-- Choices on features, with assignments of the target at the leaves. -/
inductive Rule.IsTree (features : List String) (target : String) : Rule → Prop
  | leaf (classIndex : Nat) : IsTree features target (.leaf target classIndex)
  | choice {feature : String} (threshold : Float) {yes no : Rule} :
      feature ∈ features → IsTree features target yes → IsTree features target no →
      IsTree features target (.choice ⟨.var feature, .greater, .real threshold⟩ yes no)

namespace DecisionTree

variable {features : List String} {target : String} {rule : Rule}

theorem unrollNode_ok {nodes : List TreeNode} {levels : Nat} {index : Fin nodes.length}
    {visited later : List (Fin nodes.length)}
    (h : unrollNode nodes features target levels index visited = .ok (rule, later)) :
    rule.IsTree features target := by
  induction levels generalizing index visited later rule with
  | zero => cases h
  | succ levels ih =>
    unfold unrollNode at h
    split at h
    · cases h
    dsimp only at h
    split at h
    · split at h
      · cases h
        exact .leaf _
      · cases h
    · obtain ⟨left, -, h⟩ := bind_ok h
      obtain ⟨right, -, h⟩ := bind_ok h
      split at h
      · cases h
      · obtain ⟨⟨yes, between⟩, hyes, h⟩ := bind_ok h
        obtain ⟨⟨no, later⟩, hno, h⟩ := bind_ok h
        cases h
        exact .choice _ (List.getElem_mem _) (ih hyes) (ih hno)

theorem unroll_ok {tree : DecisionTree} (h : tree.unroll features target = .ok rule) :
    rule.IsTree features target := by
  obtain ⟨nodes, -, h⟩ := bind_ok h
  split at h
  · obtain ⟨⟨root, visited⟩, hroot, h⟩ := bind_ok h
    cases h
    exact unrollNode_ok hroot
  · cases h

end DecisionTree

-- ---------------------------------------------------------------------------
-- Linear models and perceptrons
-- ---------------------------------------------------------------------------

/-- A sum is zero, or its first term with the others added one after another. -/
theorem Expr.sum_induction {motive : Expr → Prop} {terms : List Expr} (zero : motive (.int 0))
    (term : ∀ e ∈ terms, motive e)
    (add : ∀ {left right}, motive left → right ∈ terms → motive (.binary .add left right)) :
    motive (sum terms) := by
  have hfold (rest : List Expr) (first : Expr) (hfirst : motive first) (h : rest ⊆ terms) :
      motive (rest.foldl (.binary .add) first) := by
    induction rest generalizing first with
    | nil => exact hfirst
    | cons next rest ih =>
      obtain ⟨hnext, hrest⟩ := List.cons_subset.mp h
      exact ih _ (add hfirst hnext) hrest
  cases terms with
  | nil => exact zero
  | cons first rest =>
    exact hfold rest first (term first List.mem_cons_self) (List.subset_cons_self first rest)

theorem LinearModel.unroll_ok {model : LinearModel} {features : List String} {target : String}
    {rule : Rule} (h : model.unroll features target = .ok rule) :
    rule = .sequence (Statement.linear target features model.weights model.intercept) := by
  obtain ⟨_, -, h⟩ := bind_ok h
  cases h
  rfl

namespace Perceptron

/-- The number of neurons of a layer, each with a weight for its first input. -/
def width (weights : List (List Float)) : Nat :=
  (weights.head?.map List.length).getD 0

theorem length_neuronWeights {place inputs : Nat} {weights neurons : List (List Float)}
    (h : neuronWeights place inputs weights = .ok neurons) : neurons.length = width weights := by
  obtain ⟨_, -, h⟩ := bind_ok h
  dsimp only at h
  split at h
  · cases h
  · split at h
    · cases h
    · cases h
      simp [width]

/-- One layer: the names of its neurons, with the weights and the bias of each. -/
def layer (inputs names : List String) (neurons : List (List Float)) (biases : List Float)
    (activation : Activation) : List Statement :=
  ((names.zip neurons).zip biases).flatMap fun ((name, weights), bias) =>
    neuronStatements name inputs weights bias activation

variable {network : Perceptron} {features inputs : List String} {target : String}
  {statements : List Statement}

/-- The statements of a layer stand before those of the layers that it feeds. Only the last layer
has the target as its one neuron. -/
theorem layerStatements_cons_ok {place : Nat} {weights : List (List Float)} {biases : List Float}
    {rest : List (List (List Float) × List Float)}
    (h : layerStatements network target place inputs ((weights, biases) :: rest) =
      .ok statements) :
    ∃ names neurons activation later,
      statements = layer inputs names neurons biases activation ++ later ∧
      layerStatements network target (place + 1) names rest = .ok later ∧
      names.length = neurons.length ∧ biases.length = neurons.length ∧
      (rest = [] → names = [target]) ∧
      (rest ≠ [] → names = (List.range (width weights)).map (neuronName target false place)) := by
  obtain ⟨neurons, hneurons, h⟩ := bind_ok h
  obtain ⟨_, hbiases, h⟩ := bind_ok h
  have hbiases := expectCount_ok hbiases
  cases rest with
  | nil =>
    obtain ⟨_, hone, h⟩ := bind_ok h
    have hone := expectCount_ok hone
    obtain ⟨later, hlater, h⟩ := bind_ok h
    cases h
    refine ⟨_, neurons, _, later, rfl, hlater, by simp, hbiases, fun _ => ?_, fun h => nomatch h rfl⟩
    simp [hone, neuronName]
  | cons next rest =>
    obtain ⟨later, hlater, h⟩ := bind_ok h
    cases h
    refine ⟨_, neurons, _, later, rfl, hlater, by simp, hbiases, fun h => (nomatch h), fun _ => ?_⟩
    rw [length_neuronWeights hneurons]
    rfl

theorem unroll_ok {offset : Option Float} {rule : Rule}
    (h : network.unroll features target offset = .ok rule) :
    ∃ layers statements, layers ≠ [] ∧ layers.map (·.1) = network.weights ∧
      layerStatements network target 0 features layers = .ok statements ∧
      rule = .sequence (statements ++ (offset.map (Statement.addConstant target)).toList) := by
  obtain ⟨_, -, h⟩ := bind_ok h
  obtain ⟨_, -, h⟩ := bind_ok h
  dsimp only at h
  split at h
  · cases h
  · rename_i hlayers
    obtain ⟨_, hbiases, h⟩ := bind_ok h
    have hbiases := expectCount_ok hbiases
    obtain ⟨statements, hstatements, h⟩ := bind_ok h
    cases h
    refine ⟨_, statements, ?_, List.map_fst_zip (Nat.le_of_eq hbiases.symm), hstatements, ?_⟩
    · apply List.ne_nil_of_length_pos
      simp [hbiases, Nat.pos_of_ne_zero hlayers]
    · cases offset <;> rfl

end Perceptron

-- ---------------------------------------------------------------------------
-- Scalers and pipelines
-- ---------------------------------------------------------------------------

namespace Scaler

/-- The assignments of the scaled features, as far as there are means and scales. -/
def statements (features : List String) (means scales : List Float) : List Statement :=
  ((features.zip means).zip scales).map fun ((feature, mean), scale) => statement feature mean scale

theorem expectValues_ok {what : String} {count : Nat} {values : Option (List Float)}
    (h : expectValues what count values = .ok ()) : ∀ given ∈ values, given.length = count := by
  rintro given ⟨⟩
  exact expectCount_ok h

theorem unroll_ok {scaler : Scaler} {features : List String} {e : Unrolled}
    (h : scaler.unroll features = .ok e) :
    ∃ means scales, means.length = features.length ∧ scales.length = features.length ∧
      e = ⟨features.map scaledName, .sequence (statements features means scales)⟩ := by
  obtain ⟨_, hmean, h⟩ := bind_ok h
  have hmean := expectValues_ok hmean
  obtain ⟨_, hscale, h⟩ := bind_ok h
  have hscale := expectValues_ok hscale
  cases h
  refine ⟨_, _, ?_, ?_, rfl⟩
  · cases hm : scaler.mean with
    | none => simp
    | some means => exact hmean means hm
  · cases hs : scaler.scale with
    | none => simp
    | some scales => exact hscale scales hs

end Scaler

namespace Classifier

section
variable {p : Params} {target : String} {motive : List String → Unrolled → Prop}

/-- What holds of the rules of every single stage, and of the rules of two stages one after the
other when it holds of each, holds of all rules that unrolling returns. -/
theorem unroll_induction
    (tree : ∀ {features rule}, rule.IsTree features target → motive features ⟨features, rule⟩)
    (linear : ∀ {features model rule}, LinearModel.unroll model features target = .ok rule →
      motive features ⟨features, rule⟩)
    (perceptron : ∀ {features network rule},
      Perceptron.unroll network features target p.outputOffset = .ok rule →
      motive features ⟨features, rule⟩)
    (scaler : ∀ {features s e}, Scaler.unroll s features = .ok e → motive features e)
    (andThen : ∀ {features first next}, motive features first → motive first.features next →
      motive features ⟨next.features, first.rules.andThen next.rules⟩)
    (c : Classifier) {features : List String} {e : Unrolled}
    (h : c.unroll p target features = .ok e) : motive features e := by
  have hsteps (steps : List Classifier) (hall : ∀ step ∈ steps, ∀ {features e},
      step.unroll p target features = .ok e → motive features e) {features : List String}
      {done e : Unrolled} (hdone : motive features done)
      (h : unrollSteps p target done steps = .ok e) : motive features e := by
    induction steps generalizing done with
    | nil =>
      cases h
      exact hdone
    | cons step rest ih =>
      unfold unrollSteps at h
      obtain ⟨next, hnext, h⟩ := bind_ok h
      refine ih (fun step hs => hall step (List.mem_cons_of_mem _ hs)) ?_ h
      exact andThen hdone (hall step List.mem_cons_self hnext)
  match c, h with
  | .tree t, h =>
    obtain ⟨rule, hrule, h⟩ := bind_ok h
    cases h
    exact tree (DecisionTree.unroll_ok hrule)
  | .linear model, h =>
    obtain ⟨rule, hrule, h⟩ := bind_ok h
    cases h
    exact linear hrule
  | .perceptron network, h =>
    obtain ⟨rule, hrule, h⟩ := bind_ok h
    cases h
    exact perceptron hrule
  | .scaler s, h => exact scaler h
  | .pipeline (first :: rest), h =>
    obtain ⟨start, hstart, h⟩ := bind_ok h
    have hfirst := unroll_induction tree linear perceptron scaler andThen first hstart
    refine hsteps rest (fun step hs _ _ h => ?_) hfirst h
    have := List.sizeOf_lt_of_mem hs
    exact unroll_induction tree linear perceptron scaler andThen step h
termination_by c

end

end Classifier

end FairProgram
