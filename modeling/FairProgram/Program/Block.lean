import FairProgram.Population.Compile
import FairProgram.Predicate
import FairProgram.Program.Line
import FairProgram.Rule

/-!
# Program blocks

The two procedures of a program: `popModel` draws a member of the population, and `F` classifies it.
Each ends with the declarations of its predicates.
-/

namespace FairProgram

namespace StepFit

/-- The text of one bucket. Its probability is written from whole units, with all places of the
fit. -/
def bucketText (places fitPlaces : Nat) (lower upper : Float) (units : Nat) : String :=
  "(" ++ Decimal.literal lower places ++ ", " ++ Decimal.literal upper places ++ ", " ++
    Decimal.unitsText units fitPlaces ++ ")"

def bucketTexts (places fitPlaces : Nat) : List Float → List Nat → List String
  | lower :: upper :: edges, units :: rest =>
    bucketText places fitPlaces lower upper units ::
      bucketTexts places fitPlaces (upper :: edges) rest
  | _, _ => []

end StepFit

def Fit.render (places : Nat) (fit : Fit) : String :=
  fit.kind ++ match fit with
    | .gaussian mean deviation =>
      "(" ++ Decimal.literal mean places ++ ", " ++ Decimal.literal deviation places ++ ")"
    | .step s =>
      "([" ++ String.intercalate ", " (StepFit.bucketTexts places s.places s.edges s.units) ++ "])"

/-- The distribution that a fit denotes, unless its literals would have too many places. -/
def Fit.render? (places : Nat) (fit : Fit) : Option String :=
  if Decimal.maxPlaces < places then none else some (fit.render places)

namespace Node

/-- The line that opens a branch: the last branch takes what the others leave. -/
def branchHead (places : Nat) (name : String) (isFirst isLast : Bool) (range : Range) : String :=
  if isLast then "else:"
  else (if isFirst then "if " else "elif ") ++ name ++ " <= " ++
    Decimal.literal range.upper places ++ ":"

mutual
/-- The assignment of a node's column, and its partitions behind it. -/
def lines (places indent : Nat) : Node → List Line
  | mk _ name fit partitions =>
    ⟨indent, name ++ " = " ++ fit.render places⟩ :: partitionLines places indent name partitions
def partitionLines (places indent : Nat) (name : String) :
    List (Partitioning Node) → List Line
  | [] => []
  | ⟨_, branches⟩ :: rest =>
    branchLines places indent name true branches ++ partitionLines places indent name rest
def branchLines (places indent : Nat) (name : String) (isFirst : Bool) :
    List (Branch Node) → List Line
  | [] => []
  | ⟨range, nodes⟩ :: rest =>
    ⟨indent, branchHead places name isFirst rest.isEmpty range⟩ ::
      (nodeLines places (indent + 1) nodes ++ branchLines places indent name false rest)
def nodeLines (places indent : Nat) : List Node → List Line
  | [] => []
  | node :: rest => node.lines places indent ++ nodeLines places indent rest
end

end Node

namespace Rule

mutual
/-- The lines of a rule; the statements of a sequence stand at its own depth. -/
def lines (places indent : Nat) : Rule → List Line
  | .leaf target classIndex => [⟨indent, target ++ " = " ++ toString classIndex⟩]
  | .choice condition yes no =>
    ⟨indent, "if " ++ condition.render places ++ ":"⟩ ::
      (yes.lines places (indent + 1) ++ ⟨indent, "else:"⟩ :: no.lines places (indent + 1))
  | .guarded condition yes =>
    ⟨indent, "if " ++ condition.render places ++ ":"⟩ :: yes.lines places (indent + 1)
  | .sequence statements => statementLines places indent statements
def statementLines (places indent : Nat) : List Statement → List Line
  | [] => []
  | .assign name value :: rest =>
    ⟨indent, name ++ " = " ++ value.render places⟩ :: statementLines places indent rest
  | .rule rule :: rest => rule.lines places indent ++ statementLines places indent rest
end

end Rule

def Predicate.declaration (places : Nat) (keyword : String) (p : Predicate) : Line :=
  ⟨1, keyword ++ "(" ++ p.render places ++ ")"⟩

structure Block where
  name : String
  body : List Line

namespace Block

def population (p : Params) (model : PopulationModel) (sensitive qualified : List Predicate) :
    Block where
  name := "popModel"
  body :=
    Node.nodeLines p.decimalPlaces 1 model.roots ++
      sensitive.map (·.declaration p.decimalPlaces "sensitiveAttribute") ++
      qualified.map (·.declaration p.decimalPlaces "qualified")

def classifier (p : Params) (rules : Rule) (fairness : List Predicate) : Block where
  name := "F"
  body :=
    rules.lines p.literalPlaces 1 ++ fairness.map (·.declaration p.literalPlaces "fairnessTarget")

/-- The block of a classifier, unless its literals would have too many places. -/
def classifier? (p : Params) (rules : Rule) (fairness : List Predicate) : Option Block :=
  let hasLiterals := rules.hasReals || !fairness.isEmpty
  if hasLiterals && Decimal.maxPlaces < p.literalPlaces then none
  else some (classifier p rules fairness)

def text (block : Block) : String :=
  "def " ++ block.name ++ "():\n" ++ Line.join block.body

/-- The text that a block adds to a program: every block but the first follows a blank line. -/
def textAfter (isFirst : Bool) (block : Block) : String :=
  if isFirst then block.text else "\n" ++ block.text

end Block

end FairProgram
