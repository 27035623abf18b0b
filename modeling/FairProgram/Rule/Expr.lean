import FairProgram.Decimal.Fixed

/-!
# Expressions and conditions

Arithmetic over named variables, and strict comparisons of two expressions. An expression is written
from left to right, and only its own parentheses are written, so whoever builds it decides how its
operands group.
-/

namespace FairProgram

inductive Operator where
  | add
  | sub
  | mul
  | div
  | pow
deriving DecidableEq

def Operator.symbol : Operator → String
  | .add => "+"
  | .sub => "-"
  | .mul => "*"
  | .div => "/"
  | .pow => "**"

inductive Expr where
  | var (name : String)
  | real (value : Float)
  | int (value : Int)
  | euler
  | neg (inner : Expr)
  | paren (inner : Expr)
  | binary (op : Operator) (left right : Expr)

namespace Expr

/-- The terms joined by `+` from the left, zero without terms. -/
def sum : List Expr → Expr
  | [] => .int 0
  | first :: rest => rest.foldl (.binary .add) first

/-- Each name times its weight, added up, as far as there are both names and weights. -/
def weightedSum (names : List String) (weights : List Float) : Expr :=
  sum ((names.zip weights).map fun (name, weight) => .binary .mul (.var name) (.real weight))

/-- The text of an expression, with `places` decimal places in real literals. -/
def render (places : Nat) : Expr → String
  | .var name => name
  | .real value => Decimal.literal value places
  | .int value => toString value
  | .euler => "2.718281828459045"
  | .neg inner => "-" ++ inner.render places
  | .paren inner => "(" ++ inner.render places ++ ")"
  | .binary op left right =>
    left.render places ++ " " ++ op.symbol ++ " " ++ right.render places

def hasReals : Expr → Bool
  | .real _ => true
  | .var _ | .int _ | .euler => false
  | .neg inner | .paren inner => inner.hasReals
  | .binary _ left right => left.hasReals || right.hasReals

/-- The text of an expression, unless a literal would have too many places. -/
def render? (places : Nat) (e : Expr) : Option String :=
  if e.hasReals && Decimal.maxPlaces < places then none else some (e.render places)

end Expr

inductive Comparison where
  | greater
  | less
deriving DecidableEq

def Comparison.symbol : Comparison → String
  | .greater => ">"
  | .less => "<"

structure Condition where
  left : Expr
  op : Comparison
  right : Expr

namespace Condition

def render (places : Nat) (c : Condition) : String :=
  c.left.render places ++ " " ++ c.op.symbol ++ " " ++ c.right.render places

def hasReals (c : Condition) : Bool :=
  c.left.hasReals || c.right.hasReals

/-- The text of a condition, unless a literal would have too many places. -/
def render? (places : Nat) (c : Condition) : Option String :=
  if c.hasReals && Decimal.maxPlaces < places then none else some (c.render places)

end Condition

end FairProgram
