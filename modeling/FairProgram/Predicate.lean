import FairProgram.Decimal.Numeral
import FairProgram.Rule.Expr
import FairProgram.Text.Blank

/-!
# Predicates

A strict comparison of a named attribute with a threshold, such as `age > 18`: its text and how it
is read.
-/

namespace FairProgram

structure Predicate where
  name : String
  op : Comparison
  threshold : Float

inductive PredicateError where
  | empty
  | noOperator (text : String)
  | unsupportedOperator (op : String)
  | noAttribute (text : String)
  | badThreshold (text : String)

def PredicateError.message : PredicateError → String
  | .empty => "predicate is empty"
  | .noOperator text => "predicate '" ++ text ++ "' has no comparison operator"
  | .unsupportedOperator op => "unsupported operator '" ++ op ++ "', expected '>' or '<'"
  | .noAttribute text => "predicate '" ++ text ++ "' has no attribute name"
  | .badThreshold text => "cannot parse threshold '" ++ text ++ "' as a number"

namespace Predicate

def isOperatorChar (c : Char) : Bool :=
  c == '<' || c == '>' || c == '=' || c == '!'

def comparison? : List Char → Option Comparison
  | ['>'] => some .greater
  | ['<'] => some .less
  | _ => none

/-- Reads an attribute, a run of operator characters and a finite number, with blanks around each
of the three left out. -/
def parse (text : String) : Except PredicateError Predicate :=
  let text := Text.trim text.toList
  let left := text.takeWhile fun c => !isOperatorChar c
  let fromOperator := text.dropWhile fun c => !isOperatorChar c
  let run := fromOperator.takeWhile isOperatorChar
  let name := Text.trim left
  let raw := Text.trim (fromOperator.dropWhile isOperatorChar)
  if text.isEmpty then .error .empty
  else if run.isEmpty then .error (.noOperator (String.ofList text))
  else match comparison? run with
    | none => .error (.unsupportedOperator (String.ofList run))
    | some op =>
      if name.isEmpty then .error (.noAttribute (String.ofList text))
      else match Decimal.read? raw with
        | none => .error (.badThreshold (String.ofList raw))
        | some threshold =>
          if threshold.isFinite then .ok ⟨String.ofList name, op, threshold⟩
          else .error (.badThreshold (String.ofList raw))

/-- The text of a predicate, with `places` decimal places in its threshold. -/
def render (places : Nat) (p : Predicate) : String :=
  p.name ++ " " ++ p.op.symbol ++ " " ++ Decimal.literal p.threshold places

/-- The text of a predicate, unless its threshold would have too many places. -/
def render? (places : Nat) (p : Predicate) : Option String :=
  if Decimal.maxPlaces < places then none else some (p.render places)

def displayPlaces : Nat := 6

end Predicate

end FairProgram
