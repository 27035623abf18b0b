import FairProgram.Rule
import Mathlib

/-!
# What rules do

A rule is run over values of any kind, given an arithmetic for them. What it does is the assignments
it makes, in order; each expression reads what was assigned before it.
-/

namespace FairProgram

/-- What expressions and conditions need of values: literals, operators and one comparison. -/
structure Arithmetic (α : Type) where
  real : Float → α
  int : Int → α
  euler : α
  neg : α → α
  binary : Operator → α → α → α
  less : α → α → Bool

/-- Doubles with the operations of the machine. -/
def Arithmetic.doubles : Arithmetic Float where
  real value := value
  int := Float.ofInt
  euler := 2.718281828459045
  neg value := -value
  binary
    | .add => (· + ·)
    | .sub => (· - ·)
    | .mul => (· * ·)
    | .div => (· / ·)
    | .pow => Float.pow
  less left right := left < right

section
variable {α : Type} (arithmetic : Arithmetic α)

def Expr.eval (store : String → α) : Expr → α
  | .var name => store name
  | .real value => arithmetic.real value
  | .int value => arithmetic.int value
  | .euler => arithmetic.euler
  | .neg inner => arithmetic.neg (inner.eval store)
  | .paren inner => inner.eval store
  | .binary op left right => arithmetic.binary op (left.eval store) (right.eval store)

def Condition.holds (store : String → α) (c : Condition) : Bool :=
  match c.op with
  | .greater => arithmetic.less (c.right.eval arithmetic store) (c.left.eval arithmetic store)
  | .less => arithmetic.less (c.left.eval arithmetic store) (c.right.eval arithmetic store)

/-- The values of variables after assignments, the last one to a variable counting. -/
def assigned (store : String → α) (made : List (String × α)) : String → α :=
  made.foldl (fun store (name, value) => Function.update store name value) store

mutual
/-- The assignments that a rule makes, in order. -/
def Rule.run (store : String → α) : Rule → List (String × α)
  | .leaf target classIndex => [(target, arithmetic.int classIndex)]
  | .choice condition yes no =>
    if condition.holds arithmetic store then yes.run store else no.run store
  | .guarded condition yes => if condition.holds arithmetic store then yes.run store else []
  | .sequence statements => runStatements store statements
def runStatements (store : String → α) : List Statement → List (String × α)
  | [] => []
  | .assign name value :: rest =>
    let made := [(name, value.eval arithmetic store)]
    made ++ runStatements (assigned store made) rest
  | .rule rule :: rest =>
    let made := rule.run store
    made ++ runStatements (assigned store made) rest
end

end

end FairProgram
