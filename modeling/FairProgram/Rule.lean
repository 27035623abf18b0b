import FairProgram.Rule.Expr

/-!
# Rules

Straight-line and branching procedures over named variables.
-/

namespace FairProgram

mutual
inductive Rule where
  | leaf (target : String) (classIndex : Nat)
  | choice (condition : Condition) (yes no : Rule)
  /-- Takes a rule where the condition holds and does nothing elsewhere. -/
  | guarded (condition : Condition) (yes : Rule)
  | sequence (statements : List Statement)
inductive Statement where
  | assign (name : String) (value : Expr)
  | rule (rule : Rule)
end

namespace Rule

/-- The statements of a sequence; any other rule is one statement. -/
def statements : Rule → List Statement
  | .sequence statements => statements
  | rule => [.rule rule]

/-- One rule after another, as one sequence of the statements of both. -/
def andThen (first second : Rule) : Rule :=
  .sequence (first.statements ++ second.statements)

mutual
def branches : Rule → Nat
  | .leaf _ _ => 0
  | .choice _ yes no => 1 + yes.branches + no.branches
  | .guarded _ yes => 1 + yes.branches
  | .sequence statements => statementBranches statements
def statementBranches : List Statement → Nat
  | [] => 0
  | .assign _ _ :: rest => statementBranches rest
  | .rule rule :: rest => rule.branches + statementBranches rest
end

mutual
def hasReals : Rule → Bool
  | .leaf _ _ => false
  | .choice condition yes no => condition.hasReals || yes.hasReals || no.hasReals
  | .guarded condition yes => condition.hasReals || yes.hasReals
  | .sequence statements => statementsHaveReals statements
def statementsHaveReals : List Statement → Bool
  | [] => false
  | .assign _ value :: rest => value.hasReals || statementsHaveReals rest
  | .rule rule :: rest => rule.hasReals || statementsHaveReals rest
end

end Rule

end FairProgram
