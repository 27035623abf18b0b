import FairProgram.Classifier
import FairProgram.Json.Printer
import FairProgram.Json.Reader
import FairProgram.Text.Hidden

/-!
# Classifier documents

A classifier is written as a JSON object with a `kind` and the arrays of that kind. Members are read
in the order of their keys and the first bad one is the fault; only then a missing one is. Arrays
that carry a superfluous axis may be nested as deep as they like.
-/

namespace FairProgram

inductive DocumentError where
  | text (error : Json.SyntaxError)
  | noKind
  /-- A fault in the members of a classifier of some kind. -/
  | inside (kind : String) (error : DocumentError)
  | missing (field : String)
  | notNumeric (value : Json)
  | notSingle (count : Nat)
  | wrongType (value : Json) (expected : String)
  | outOfRange (value : Int)

namespace Json

/-- A character of a quoted text in a message. One that is hidden is written by its number. -/
def quoteChar (c : Char) : List Char :=
  match c with
  | '"' => ['\\', '"']
  | '\\' => ['\\', '\\']
  | '\n' => ['\\', 'n']
  | '\r' => ['\\', 'r']
  | '\t' => ['\\', 't']
  | '\x00' => ['\\', '0']
  | c =>
    if Text.isHidden c then '\\' :: 'u' :: '\x7b' :: Nat.toDigits 16 c.toNat ++ ['\x7d']
    else [c]

def describe : Json → String
  | .null => "null"
  | .bool value => "boolean `" ++ (if value then "true" else "false") ++ "`"
  | .number (.int value) => "integer `" ++ toString value ++ "`"
  | .number (.real value) => "floating point `" ++ realText value ++ "`"
  | .string value => "string \"" ++ String.ofList (value.toList.flatMap quoteChar) ++ "\""
  | .array _ => "sequence"
  | .object _ => "map"

end Json

def DocumentError.message : DocumentError → String
  | .text error => error.message
  | .noKind => "classifier needs a string 'kind' field"
  | .inside kind error => "invalid '" ++ kind ++ "' classifier: " ++ error.message
  | .missing field => "missing field `" ++ field ++ "`"
  | .notNumeric value => "expected number or array, got " ++ value.compact
  | .notSingle count => "expected a single number, got " ++ toString count ++ " values"
  | .wrongType value expected => "invalid type: " ++ value.describe ++ ", expected " ++ expected
  | .outOfRange value => "invalid value: integer `" ++ toString value ++ "`, expected i64"

namespace Json

mutual
/-- The numbers of a number or of nested arrays, from left to right, as they would be pushed to one
buffer; otherwise the first leaf that is neither. -/
def flatten : Json → Except Json (List Float)
  | .number value => .ok [value.toFloat]
  | .array items => flattenItems items
  | other => .error other
def flattenItems : List Json → Except Json (List Float)
  | [] => .ok []
  | item :: rest => do
    let head ← item.flatten
    let tail ← flattenItems rest
    return head ++ tail
end

def readFlat (value : Json) : Except DocumentError (List Float) :=
  value.flatten.mapError .notNumeric

def readSingle (value : Json) : Except DocumentError Float := do
  match ← value.readFlat with
  | [single] => return single
  | values => throw (.notSingle values.length)

def readArray {α : Type} (readItem : Json → Except DocumentError α) :
    Json → Except DocumentError (List α)
  | .array items => items.mapM readItem
  | other => .error (.wrongType other "a sequence")

def readInt : Json → Except DocumentError Int
  | .number (.int value) =>
    if -(Whole.signedBound : Int) ≤ value ∧ value < Whole.signedBound then .ok value
    else .error (.outOfRange value)
  | other => .error (.wrongType other "i64")

def readFloat : Json → Except DocumentError Float
  | .number value => .ok value.toFloat
  | other => .error (.wrongType other "f64")

def readString : Json → Except DocumentError String
  | .string value => .ok value
  | other => .error (.wrongType other "a string")

/-- A value that may be absent; null counts as absent. -/
def readNullable {α : Type} (read : Json → Except DocumentError α) :
    Json → Except DocumentError (Option α)
  | .null => .ok none
  | value => do return some (← read value)

def readMember? {α : Type} (members : List (String × Json)) (key : String)
    (read : Json → Except DocumentError α) : Except DocumentError (Option α) :=
  match member? key members with
  | none => .ok none
  | some value => do return some (← read value)

end Json

def requireMember {α : Type} (key : String) : Option α → Except DocumentError α
  | some value => .ok value
  | none => .error (.missing key)

open Json in
def DecisionTree.ofMembers (members : List (String × Json)) :
    Except DocumentError DecisionTree := do
  let left ← readMember? members "children_left" (readArray readInt)
  let right ← readMember? members "children_right" (readArray readInt)
  let feature ← readMember? members "feature" (readArray readInt)
  let threshold ← readMember? members "threshold" (readArray readFloat)
  let counts ← readMember? members "value" (readArray readFlat)
  return {
    left := ← requireMember "children_left" left
    right := ← requireMember "children_right" right
    feature := ← requireMember "feature" feature
    threshold := ← requireMember "threshold" threshold
    counts := ← requireMember "value" counts }

open Json in
def LinearModel.ofMembers (members : List (String × Json)) : Except DocumentError LinearModel := do
  let weights ← readMember? members "coef" readFlat
  let intercept ← readMember? members "intercept" readSingle
  return {
    weights := ← requireMember "coef" weights
    intercept := ← requireMember "intercept" intercept }

open Json in
def Perceptron.ofMembers (members : List (String × Json)) : Except DocumentError Perceptron := do
  let hidden ← readMember? members "activation" readString
  let weights ← readMember? members "coefs" (readArray (readArray (readArray readFloat)))
  let biases ← readMember? members "intercepts" (readArray (readArray readFloat))
  let output ← readMember? members "out_activation" readString
  return {
    weights := ← requireMember "coefs" weights
    biases := ← requireMember "intercepts" biases
    hidden := (hidden.map Activation.ofName).getD .relu
    output := (output.map Activation.ofName).getD .identity }

open Json in
def Scaler.ofMembers (members : List (String × Json)) : Except DocumentError Scaler := do
  let mean ← readMember? members "mean" (readNullable (readArray readFloat))
  let scale ← readMember? members "scale" (readNullable (readArray readFloat))
  return { mean := mean.join, scale := scale.join }

inductive ClassifierKind where
  | tree
  | linear
  | perceptron
  | scaler
  | pipeline
  | other

def ClassifierKind.ofName (name : String) : ClassifierKind :=
  if name = "decision_tree" ∨ name = "DecisionTreeClassifier" then .tree
  else if name = "linear" ∨ name = "LinearSVC" then .linear
  else if name = "mlp" ∨ name = "MLPClassifier" then .perceptron
  else if name = "scaler" ∨ name = "StandardScaler" then .scaler
  else if name = "pipeline" ∨ name = "Pipeline" then .pipeline
  else .other

namespace Classifier

def kindName? (members : List (String × Json)) : Option String :=
  match Json.member? "kind" members with
  | some (.string name) => some name
  | _ => none

mutual
def ofJson : Json → Except DocumentError Classifier
  | .object members =>
    match kindName? members with
    | none => .error .noKind
    | some name =>
      let result : Except DocumentError Classifier := match ClassifierKind.ofName name with
        | .tree => (DecisionTree.ofMembers members).map .tree
        | .linear => (LinearModel.ofMembers members).map .linear
        | .perceptron => (Perceptron.ofMembers members).map .perceptron
        | .scaler => (Scaler.ofMembers members).map .scaler
        | .pipeline => (stepsOf members).map .pipeline
        | .other => .ok (.unsupported name)
      result.mapError (.inside name)
  | _ => .error .noKind
def stepsOf : List (String × Json) → Except DocumentError (List Classifier)
  | [] => .error (.missing "steps")
  | (key, value) :: rest =>
    if key = "steps" then
      match value with
      | .array items => ofItems items
      | other => .error (.wrongType other "a sequence")
    else stepsOf rest
def ofItems : List Json → Except DocumentError (List Classifier)
  | [] => .ok []
  | item :: rest => do
    let first ← ofJson item
    let others ← ofItems rest
    return first :: others
end

/-- The classifier of a document. What follows the value is looked at last. -/
def ofBytes (document : List UInt8) : Except DocumentError Classifier := do
  let locate (fault : Json.Fault) : DocumentError := .text (fault.locate document)
  let (value, rest) ← (Json.readPrefix document).mapError locate
  let classifier ← ofJson value
  (Json.expectEnd rest).mapError locate
  return classifier

def ofText (text : String) : Except DocumentError Classifier :=
  ofBytes text.toUTF8.toList

end Classifier

end FairProgram
