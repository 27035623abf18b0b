/-!
# Trained classifiers

The fitted arrays of the classifiers that can be unrolled into rules.
-/

namespace FairProgram

/-- A decision tree as one array for each part of a node. A node whose left child is `-1` is a
leaf. -/
structure DecisionTree where
  left : List Int
  right : List Int
  feature : List Int
  threshold : List Float
  counts : List (List Float)

structure LinearModel where
  weights : List Float
  intercept : Float

inductive Activation where
  | relu
  | logistic
  | identity
  | unsupported (name : String)
deriving DecidableEq

def Activation.ofName (name : String) : Activation :=
  if name = "relu" then .relu
  else if name = "logistic" then .logistic
  else if name = "identity" then .identity
  else .unsupported name

/-- A multi-layer perceptron. The weights of a layer have a row for each input and a column for each
neuron. -/
structure Perceptron where
  weights : List (List (List Float))
  biases : List (List Float)
  hidden : Activation
  output : Activation

/-- The standardisation `(x - mean) / scale`; without a mean nothing is centred, and without a scale
nothing is scaled. -/
structure Scaler where
  mean : Option (List Float)
  scale : Option (List Float)

inductive Classifier where
  | tree (tree : DecisionTree)
  | linear (model : LinearModel)
  | perceptron (network : Perceptron)
  | scaler (scaler : Scaler)
  /-- Stages in order; each sees the outputs of the one before. -/
  | pipeline (steps : List Classifier)
  | unsupported (kind : String)

def Classifier.kind : Classifier → String
  | .tree _ => "decision_tree"
  | .linear _ => "linear"
  | .perceptron _ => "mlp"
  | .scaler _ => "scaler"
  | .pipeline _ => "pipeline"
  | .unsupported kind => kind

end FairProgram
