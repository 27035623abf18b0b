import FairProgram.Program
import FairProgram.Whole

/-!
# Command line

Options are read from left to right, each with its value behind `=` or as the next argument. The
files that they name are read, and the program is printed or written to a file.
-/

namespace FairProgram.CommandLine

inductive Key where
  | data
  | classifier
  | target
  | sensitive
  | qualified
  | fairness
  | maxDepth
  | literalPrecision
  | features
  | output
deriving DecidableEq

/-- The name of an option behind its two dashes. -/
def Key.name : Key → String
  | .data => "data"
  | .classifier => "classifier"
  | .target => "target"
  | .sensitive => "sensitive"
  | .qualified => "qualified"
  | .fairness => "fairness"
  | .maxDepth => "max-depth"
  | .literalPrecision => "literal-precision"
  | .features => "features"
  | .output => "output"

def keys : List Key :=
  [.data, .classifier, .target, .sensitive, .qualified, .fairness, .maxDepth, .literalPrecision,
    .features, .output]

def Key.ofName? (name : List Char) : Option Key :=
  keys.find? fun key => key.name.toList == name

inductive UsageError where
  | unknownOption (argument : String)
  | strayArgument (argument : String)
  | missingValue (key : Key)
  | repeated (key : Key)
  | badValue (key : Key) (value : String)
  | missing (key : Key)

def UsageError.message : UsageError → String
  | .unknownOption argument => "unexpected option '" ++ argument ++ "'"
  | .strayArgument argument => "unexpected argument '" ++ argument ++ "'"
  | .missingValue key => "option '--" ++ key.name ++ "' needs a value"
  | .repeated key => "option '--" ++ key.name ++ "' is given twice"
  | .badValue key value => "invalid value '" ++ value ++ "' for '--" ++ key.name ++ "'"
  | .missing key => "option '--" ++ key.name ++ "' is required"

structure Given where
  data : Option String := none
  classifier : Option String := none
  target : Option String := none
  sensitive : List Predicate := []
  qualified : List Predicate := []
  fairness : List Predicate := []
  maxDepth : Option Whole.Word := none
  literalPrecision : Option Whole.Word := none
  features : Option (List String) := none
  output : Option String := none

/-- A count: digits behind an optional plus. -/
def readCount? (text : List Char) : Option Whole.Word :=
  let digits := match text with
    | '+' :: rest => rest
    | _ => text
  let value := Decimal.ofDigits digits
  if h : value ≤ Whole.maxWord then
    if !digits.isEmpty && digits.all Char.isDigit then some ⟨value, h⟩ else none
  else none

def splitCommas : List Char → List (List Char)
  | [] => [[]]
  | c :: rest =>
    match splitCommas rest with
    | [] => [[]]
    | first :: others => if c = ',' then [] :: first :: others else (c :: first) :: others

namespace Given

/-- Fails if a value is there already. -/
def once {α : Type} (key : Key) (old : Option α) (value : α) : Except UsageError (Option α) :=
  match old with
  | none => .ok (some value)
  | some _ => .error (.repeated key)

def path (key : Key) (value : String) : Except UsageError String :=
  if value.isEmpty then .error (.badValue key value) else .ok value

def predicate (key : Key) (value : String) : Except UsageError Predicate :=
  (Predicate.parse value).mapError fun _ => .badValue key value

def count (key : Key) (value : String) : Except UsageError Whole.Word :=
  match readCount? value.toList with
  | some n => .ok n
  | none => .error (.badValue key value)

def set (g : Given) (key : Key) (value : String) : Except UsageError Given := do
  match key with
  | .data => return { g with data := ← once key g.data (← path key value) }
  | .classifier => return { g with classifier := ← once key g.classifier (← path key value) }
  | .target => return { g with target := ← once key g.target value }
  | .sensitive => return { g with sensitive := g.sensitive ++ [← predicate key value] }
  | .qualified => return { g with qualified := g.qualified ++ [← predicate key value] }
  | .fairness => return { g with fairness := g.fairness ++ [← predicate key value] }
  | .maxDepth => return { g with maxDepth := ← once key g.maxDepth (← count key value) }
  | .literalPrecision =>
    return { g with literalPrecision := ← once key g.literalPrecision (← count key value) }
  | .features =>
    let names := (splitCommas value.toList).map String.ofList
    return { g with features := some (g.features.getD [] ++ names) }
  | .output => return { g with output := ← once key g.output (← path key value) }

end Given

inductive Argument where
  | help
  /-- An option whose value is the next argument. -/
  | key (key : Key)
  | keyValue (key : Key) (value : String)
  /-- The mark behind which no argument is an option. -/
  | endOfOptions
  | unknown
  | plain

/-- The kind of an argument. A single dash is no option. -/
def classify (argument : String) : Argument :=
  match argument.toList with
  | ['-', '-'] => .endOfOptions
  | '-' :: '-' :: long =>
    let name := long.takeWhile (· != '=')
    match long.dropWhile (· != '=') with
    | '=' :: value =>
      match Key.ofName? name with
      | some key => .keyValue key (String.ofList value)
      | none => .unknown
    | _ =>
      if name = "help".toList then .help
      else match Key.ofName? name with
        | some key => .key key
        | none => .unknown
  -- What follows a short option in one argument is its value, and help has none to wait for.
  | '-' :: 'h' :: _ => .help
  | ['-', 'o'] => .key .output
  | '-' :: 'o' :: '=' :: value => .keyValue .output (String.ofList value)
  | '-' :: 'o' :: value => .keyValue .output (String.ofList value)
  | '-' :: _ :: _ => .unknown
  | _ => .plain

inductive Command where
  | help
  | compile (given : Given)

def readArguments (g : Given) : List String → Except UsageError Command
  | [] => .ok (.compile g)
  | argument :: rest =>
    match classify argument with
    | .help => .ok .help
    | .unknown => .error (.unknownOption argument)
    | .plain => .error (.strayArgument argument)
    | .endOfOptions =>
      match rest with
      | [] => .ok (.compile g)
      | stray :: _ => .error (.strayArgument stray)
    | .keyValue key value => do readArguments (← g.set key value) rest
    | .key key =>
      match rest with
      | [] => .error (.missingValue key)
      | value :: rest =>
        -- An argument that looks like an option is no value.
        match classify value with
        | .plain => do readArguments (← g.set key value) rest
        | _ => .error (.missingValue key)

structure Invocation where
  data : String
  classifier : String
  output : Option String
  request : Request

def require {α : Type} (key : Key) : Option α → Except UsageError α
  | some value => .ok value
  | none => .error (.missing key)

def Given.invocation (g : Given) : Except UsageError Invocation := do
  return {
    data := ← require .data g.data
    classifier := ← require .classifier g.classifier
    output := g.output
    request := {
      target := ← require .target g.target
      features := g.features
      sensitive := g.sensitive
      qualified := g.qualified
      fairness := g.fairness
      params := (default : Params).revised g.maxDepth g.literalPrecision } }

inductive ReadError where
  | unopened (reason : String)
  /-- The file is open, but it cannot be read. -/
  | broken (reason : String)

/-- The files around a run: what reading gives and whether a file can be written, or why not. -/
structure Files where
  read : String → Except ReadError (List UInt8)
  canWrite : String → Except String Unit

inductive RunError where
  | unopened (reason : String)
  | brokenData (reason : String)
  | brokenClassifier (reason : String)
  | unwritable (reason : String)
  | program (error : ProgramError)
  | halted (halt : Halt)

def RunError.message : RunError → String
  | .unopened reason => "io error: " ++ reason
  | .brokenData reason => "csv error: " ++ reason
  | .brokenClassifier reason => "invalid classifier json: " ++ reason
  | .unwritable reason => "failed to write program: " ++ reason
  | .program error => error.message
  | .halted halt => halt.message

/-- A text that cannot be written and a halt end a run out of turn. -/
def RunError.exitCode : RunError → Nat
  | .program .tooManyPlaces | .halted _ => 101
  | _ => 1

structure Outcome where
  exitCode : Nat
  output : String := ""
  errors : String := ""
  written : Option (String × String) := none

/-- The bytes of a file. What is wrong with one that is open depends on what it is read for. -/
def Files.load (files : Files) (broken : String → RunError) (path : String) :
    Except RunError (List UInt8) :=
  (files.read path).mapError fun
    | .unopened reason => .unopened reason
    | .broken reason => broken reason

/-- The text of the program: the dataset is read first, then the classifier. -/
def Invocation.program (i : Invocation) (files : Files) : Except RunError String := do
  let data ← files.load .brokenData i.data
  let dataset ← (Dataset.ofCsv data).mapError fun e => .program (.dataset e)
  let document ← files.load .brokenClassifier i.classifier
  let classifier ← (Classifier.ofBytes document).mapError fun e => .program (.document e)
  let text ← (Program.checkedCompile dataset classifier i.request).mapError .halted
  text.mapError .program

/-- The program is complete before its file is opened, so that a failed run writes nothing. -/
def Invocation.run (i : Invocation) (files : Files) : Outcome :=
  let result : Except RunError Outcome := do
    let text ← i.program files
    match i.output with
    | none => return { exitCode := 0, output := text }
    | some path =>
      (files.canWrite path).mapError .unwritable
      return { exitCode := 0, written := some (path, text) }
  match result with
  | .ok outcome => outcome
  | .error e => { exitCode := e.exitCode, errors := "error: " ++ e.message ++ "\n" }

def Key.label (key : Key) : String :=
  String.ofList (key.name.toList.map fun c => if c = '-' then '_' else c.toUpper)

def Key.description : Key → String
  | .data => "CSV dataset with a header row of column names"
  | .classifier => "Classifier description (JSON with a \"kind\" field)"
  | .target => "Variable assigned by the classifier"
  | .sensitive => "Sensitive attribute predicate, e.g. \"sex < 1\" (repeatable)"
  | .qualified => "Qualification predicate, e.g. \"age > 18\" (repeatable)"
  | .fairness => "Fairness target predicate, e.g. \"income > 0.5\" (repeatable)"
  | .maxDepth => "Maximum nesting depth of the population model (1 = simple mode) [default: 2]"
  | .literalPrecision =>
    "Decimal places of classifier literals in F(); raise for scaled pipelines [default: 4]"
  | .features => "Comma-separated classifier inputs; defaults to every non-target column"
  | .output => "Output file; the program is printed to stdout when omitted"

/-- An option with its value, under its short name too if it has one. -/
def Key.usage (key : Key) : String :=
  (if key = .output then "  -o, --" else "      --") ++ key.name ++ " <" ++ key.label ++ ">"

def helpEntry (usage description : String) : String :=
  usage ++ "\n          " ++ description ++ "\n"

def help (name : String) : String :=
  "Compile a dataset and a trained classifier into a FairSquare program\n\n" ++
  "Usage: " ++ name ++
  " [OPTIONS] --data <DATA> --classifier <CLASSIFIER> --target <TARGET>\n\n" ++
  "Options:\n" ++
  String.join (keys.map fun key => helpEntry key.usage key.description) ++
  helpEntry "  -h, --help" "Print help"

def usageFailure (e : UsageError) : Outcome :=
  { exitCode := 2, errors := "error: " ++ e.message ++ "\n" }

def run (name : String) (files : Files) (arguments : List String) : Outcome :=
  match readArguments {} arguments with
  | .error e => usageFailure e
  | .ok .help => { exitCode := 0, output := help name }
  | .ok (.compile given) =>
    match given.invocation with
    | .error e => usageFailure e
    | .ok invocation => invocation.run files

end FairProgram.CommandLine
