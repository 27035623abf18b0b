import FairProgram.Classifier.Document
import FairProgram.Classifier.Unroll
import FairProgram.Dataset.Csv
import FairProgram.Population.Checked
import FairProgram.Program.Block

/-!
# Programs

A program models the population of a dataset without the target column, and then assigns the target
as a classifier does.
-/

namespace FairProgram

structure Request where
  /-- The variable that the classifier assigns. -/
  target : String
  /-- The inputs of the classifier in order; all columns but the target unless given. -/
  features : Option (List String) := none
  sensitive : List Predicate := []
  qualified : List Predicate := []
  fairness : List Predicate := []
  params : Params := {}

inductive ProgramError where
  | dataset (error : DatasetError)
  | model (error : ModelError)
  | document (error : DocumentError)
  | unroll (error : UnrollError)
  | params (error : ParamsError)
  | tooManyPlaces

def ProgramError.message : ProgramError → String
  | .dataset error => error.message
  | .model error => error.message
  | .document error => "invalid classifier json: " ++ error.message
  | .unroll error => error.message
  | .params error => error.message
  | .tooManyPlaces => "too many decimal places"

namespace Program

/-- The dataset without the target column, if it has one. -/
def population (d : Dataset) (target : String) : Except DatasetError Dataset :=
  match d.indexOf? target with
  | some _ => d.without target
  | none => .ok d

/-- The classifier's inputs, which must be columns of the population. -/
def features (population : Dataset) : Option (List String) → Except DatasetError (List String)
  | none => .ok population.names
  | some names =>
    match names.find? fun name => (population.indexOf? name).isNone with
    | some unknown => .error (.unknownColumn unknown)
    | none => .ok names

def inputs (d : Dataset) (r : Request) : Except ProgramError (Dataset × List String) := do
  r.params.validate.mapError .params
  let population ← (population d r.target).mapError .dataset
  let features ← (features population r.features).mapError .dataset
  return (population, features)

def text (classifier : Classifier) (r : Request) (features : List String)
    (model : PopulationModel) : Except ProgramError String := do
  let unrolled ← (classifier.unroll r.params r.target features).mapError .unroll
  let first := Block.population r.params model r.sensitive r.qualified
  let some second := Block.classifier? r.params unrolled.rules r.fairness
    | throw .tooManyPlaces
  return first.textAfter true ++ second.textAfter false

def compile (d : Dataset) (classifier : Classifier) (r : Request) : Except ProgramError String := do
  let (population, features) ← inputs d r
  let model ← (Population.compile r.params population).mapError .model
  text classifier r features model

/-- The program as it is compiled where the population may have no answer. -/
def checkedCompile (d : Dataset) (classifier : Classifier) (r : Request) :
    Except Halt (Except ProgramError String) :=
  match inputs d r with
  | .error e => .ok (.error e)
  | .ok (population, features) => do
    match ← Population.checkedCompile r.params population with
    | .error e => return .error (.model e)
    | .ok model => return text classifier r features model

end Program

end FairProgram
