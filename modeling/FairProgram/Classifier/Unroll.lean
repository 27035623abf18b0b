import FairProgram.Classifier
import FairProgram.Params
import FairProgram.Rule
import FairProgram.Selection

/-!
# Unrolling classifiers

A trained classifier becomes rules that read feature variables and assign a target. Scalers assign
new variables and pass their names on to the stages behind them.
-/

namespace FairProgram

inductive NodeFault where
  | noNodes
  | reachedTwice
  | childOutOfRange (child : Int) (nodes : Nat)
  | featureOutOfRange (feature : Int) (features : Nat)
  | noCounts

def NodeFault.message : NodeFault → String
  | .noNodes => "tree has no nodes"
  | .reachedTwice => "node reached twice"
  | .childOutOfRange child nodes =>
    "child " ++ toString child ++ " out of range for " ++ toString nodes ++ " nodes"
  | .featureOutOfRange feature features =>
    "feature " ++ toString feature ++ " out of range for " ++ toString features ++ " features"
  | .noCounts => "leaf has no class counts"

inductive UnrollError where
  | unsupportedKind (kind : String)
  | unsupportedActivation (name : String)
  | shape (what : String) (expected found : Nat)
  | emptyPipeline
  | node (index : Nat) (fault : NodeFault)

def UnrollError.message : UnrollError → String
  | .unsupportedKind kind => "unsupported classifier kind '" ++ kind ++ "'"
  | .unsupportedActivation name => "unsupported activation '" ++ name ++ "'"
  | .shape what expected found =>
    "shape mismatch for " ++ what ++ ": expected " ++ toString expected ++ ", got " ++
      toString found
  | .emptyPipeline => "pipeline has no steps"
  | .node index fault => "invalid tree node " ++ toString index ++ ": " ++ fault.message

/-- The rules of a classifier, and the features that are visible behind them. -/
structure Unrolled where
  features : List String
  rules : Rule

def expectCount (what : String) (expected found : Nat) : Except UnrollError Unit :=
  if found = expected then .ok () else .error (.shape what expected found)

/-! ## Decision trees -/

structure TreeNode where
  left : Int
  right : Int
  feature : Int
  threshold : Float
  counts : List Float

namespace DecisionTree

/-- The nodes of the arrays, as far as all of them go. -/
def zipNodes : List Int → List Int → List Int → List Float → List (List Float) → List TreeNode
  | left :: lefts, right :: rights, feature :: features, threshold :: thresholds,
      counts :: countss =>
    ⟨left, right, feature, threshold, counts⟩ :: zipNodes lefts rights features thresholds countss
  | _, _, _, _, _ => []

/-- The nodes of a tree. There must be one, and all arrays must have one length. -/
def nodes (tree : DecisionTree) : Except UnrollError (List TreeNode) := do
  let size := tree.left.length
  if size = 0 then throw (.node 0 .noNodes)
  expectCount "tree children_right" size tree.right.length
  expectCount "tree feature" size tree.feature.length
  expectCount "tree threshold" size tree.threshold.length
  expectCount "tree value" size tree.counts.length
  return zipNodes tree.left tree.right tree.feature tree.threshold tree.counts

def place? (size : Nat) (number : Int) : Option (Fin size) :=
  if h : 0 ≤ number ∧ number.toNat < size then some ⟨number.toNat, h.2⟩ else none

/-- The class of the greatest count, the first of them. -/
def majority? (counts : List Float) : Option Nat :=
  (firstBest? (fun (next best : Float × Nat) => best.1 < next.1) counts.zipIdx).map (·.2)

def child (nodes : List TreeNode) (index : Fin nodes.length) (number : Int) :
    Except UnrollError (Fin nodes.length) :=
  match place? nodes.length number with
  | some place => .ok place
  | none => .error (.node index (.childOutOfRange number nodes.length))

/-- The rule of the subtree at a node, and the nodes visited with those before. Values at or below
the threshold go left, so the right child is the branch taken above it. A path of as many levels as
there are nodes has visited all of them, so that any further node is reached twice. -/
def unrollNode (nodes : List TreeNode) (features : List String) (target : String) :
    (levels : Nat) → Fin nodes.length → List (Fin nodes.length) →
      Except UnrollError (Rule × List (Fin nodes.length))
  | 0, index, _ => .error (.node index .reachedTwice)
  | levels + 1, index, visited => do
    if visited.contains index then throw (.node index .reachedTwice)
    let visited := index :: visited
    let node := nodes[index]
    if node.left = -1 then
      match majority? node.counts with
      | some classIndex => return (.leaf target classIndex, visited)
      | none => throw (.node index .noCounts)
    else
      let left ← child nodes index node.left
      let right ← child nodes index node.right
      match place? features.length node.feature with
      | none => throw (.node index (.featureOutOfRange node.feature features.length))
      | some feature =>
        let condition : Condition := ⟨.var features[feature], .greater, .real node.threshold⟩
        -- The right subtree comes first, also where both of them are faulty.
        let (yes, visited) ← unrollNode nodes features target levels right visited
        let (no, visited) ← unrollNode nodes features target levels left visited
        return (.choice condition yes no, visited)

def unroll (tree : DecisionTree) (features : List String) (target : String) :
    Except UnrollError Rule := do
  let nodes ← tree.nodes
  if h : 0 < nodes.length then
    let (rule, _) ← unrollNode nodes features target nodes.length ⟨0, h⟩ []
    return rule
  else throw (.node 0 .noNodes)

end DecisionTree

/-! ## Linear models -/

def Statement.addConstant (name : String) (value : Float) : Statement :=
  .assign name (.binary .add (.var name) (.real value))

def Statement.linear (name : String) (inputs : List String) (weights : List Float)
    (constant : Float) : List Statement :=
  [.assign name (.weightedSum inputs weights), .addConstant name constant]

def LinearModel.unroll (model : LinearModel) (features : List String) (target : String) :
    Except UnrollError Rule := do
  expectCount "linear coefficients" features.length model.weights.length
  return .sequence (Statement.linear target features model.weights model.intercept)

/-! ## Perceptrons -/

def Activation.statements (name : String) : Activation → List Statement
  | .relu =>
    [.rule (.guarded ⟨.var name, .less, .int 0⟩ (.sequence [.assign name (.int 0)]))]
  | .logistic =>
    [.assign name (.binary .div (.int 1)
      (.paren (.binary .add (.int 1) (.binary .pow .euler (.neg (.var name))))))]
  | .identity | .unsupported _ => []

def Activation.require : Activation → Except UnrollError Unit
  | .unsupported name => .error (.unsupportedActivation name)
  | _ => .ok ()

namespace Perceptron

def layerName (layer : Nat) : String :=
  "mlp layer " ++ toString layer

/-- The weights of each neuron of a layer, checked against the number of inputs: one row for each
input, none empty, all of one length. -/
def neuronWeights (layer inputs : Nat) (weights : List (List Float)) :
    Except UnrollError (List (List Float)) := do
  expectCount (layerName layer ++ " inputs") inputs weights.length
  let neurons := (weights.head?.map List.length).getD 0
  if neurons = 0 then throw (.shape (layerName layer ++ " neurons") 1 0)
  match weights.find? fun row => row.length != neurons with
  | some row => throw (.shape (layerName layer ++ " neurons") neurons row.length)
  | none => return (List.range neurons).map fun neuron => weights.filterMap (·[neuron]?)

/-- The variable of a neuron; the only one of the last layer is the target. -/
def neuronName (target : String) (isLast : Bool) (layer neuron : Nat) : String :=
  if isLast then target else "hidden_" ++ toString layer ++ "_" ++ toString neuron

def neuronStatements (name : String) (inputs : List String) (weights : List Float) (bias : Float)
    (activation : Activation) : List Statement :=
  Statement.linear name inputs weights bias ++ activation.statements name

/-- The statements of the layers from one on, given the variables that feed it. -/
def layerStatements (network : Perceptron) (target : String) :
    (layer : Nat) → (inputs : List String) → List (List (List Float) × List Float) →
      Except UnrollError (List Statement)
  | _, _, [] => .ok []
  | layer, inputs, (weights, biases) :: rest => do
    let isLast := rest.isEmpty
    let neurons ← neuronWeights layer inputs.length weights
    expectCount (layerName layer ++ " biases") neurons.length biases.length
    if isLast then expectCount "mlp output neurons" 1 neurons.length
    let names := (List.range neurons.length).map (neuronName target isLast layer)
    let activation := if isLast then network.output else network.hidden
    let statements := ((names.zip neurons).zip biases).flatMap fun ((name, weights), bias) =>
      neuronStatements name inputs weights bias activation
    let later ← layerStatements network target (layer + 1) names rest
    return statements ++ later

def unroll (network : Perceptron) (features : List String) (target : String)
    (offset : Option Float) : Except UnrollError Rule := do
  network.hidden.require
  network.output.require
  let layers := network.weights.length
  if layers = 0 then throw (.shape "mlp layers" 1 0)
  expectCount "mlp intercepts" layers network.biases.length
  let statements ← layerStatements network target 0 features (network.weights.zip network.biases)
  let shift := match offset with
    | some value => [Statement.addConstant target value]
    | none => []
  return .sequence (statements ++ shift)

end Perceptron

/-! ## Scalers and pipelines -/

namespace Scaler

/-- The factor that divides by a scale; a scale of zero leaves values as they are. -/
def factor (scale : Float) : Float :=
  if scale == 0 then 1 else 1 / scale

def expectValues (what : String) (features : Nat) : Option (List Float) → Except UnrollError Unit
  | some values => expectCount what features values.length
  | none => .ok ()

def scaledName (feature : String) : String :=
  "scaled_" ++ feature

def statement (feature : String) (mean scale : Float) : Statement :=
  .assign (scaledName feature)
    (.binary .mul (.paren (.binary .sub (.var feature) (.real mean))) (.real (factor scale)))

def unroll (scaler : Scaler) (features : List String) : Except UnrollError Unrolled := do
  expectValues "scaler mean" features.length scaler.mean
  expectValues "scaler scale" features.length scaler.scale
  let means := scaler.mean.getD (features.map fun _ => 0)
  let scales := scaler.scale.getD (features.map fun _ => 1)
  return {
    features := features.map scaledName
    rules := .sequence (((features.zip means).zip scales).map fun ((feature, mean), scale) =>
      statement feature mean scale) }

end Scaler

namespace Classifier

mutual
/-- The rules that read `features` and assign `target` as a classifier does. -/
def unroll (p : Params) (target : String) (features : List String) :
    Classifier → Except UnrollError Unrolled
  | .tree t => do return ⟨features, ← t.unroll features target⟩
  | .linear model => do return ⟨features, ← model.unroll features target⟩
  | .perceptron network => do
    return ⟨features, ← network.unroll features target p.outputOffset⟩
  | .scaler s => s.unroll features
  | .pipeline steps =>
    match steps with
    | [] => .error .emptyPipeline
    | first :: rest => do
      let start ← first.unroll p target features
      unrollSteps p target start rest
  | .unsupported kind => .error (.unsupportedKind kind)
/-- The rules so far and those of further stages, each fed with the features of the one before. -/
def unrollSteps (p : Params) (target : String) (done : Unrolled) :
    List Classifier → Except UnrollError Unrolled
  | [] => .ok done
  | step :: rest => do
    let next ← step.unroll p target done.features
    unrollSteps p target ⟨next.features, done.rules.andThen next.rules⟩ rest
end

end Classifier

end FairProgram
