import FairProgram.Proofs.Program.Terms

/-!
# The lines of rules

A rule is a list of commands, with nested sequences flattened. Where its names can be read, its
expressions group as precedence groups them and none of its branches is empty (`Rule.Legible`), its
lines denote these commands, each literal as the number of its text (`Rule.denotes_lines`).
-/

namespace FairProgram

namespace Rule

mutual
/-- A rule as commands, nested sequences flattened. -/
def commands : Rule → List (Command Expr Condition)
  | .leaf target classIndex => [.assign target (.int classIndex)]
  | .choice condition yes no => [.branch condition yes.commands no.commands]
  | .guarded condition yes => [.branch condition yes.commands []]
  | .sequence statements => statementCommands statements
def statementCommands : List Statement → List (Command Expr Condition)
  | [] => []
  | .assign name value :: rest => .assign name value :: statementCommands rest
  | .rule rule :: rest => rule.commands ++ statementCommands rest
end

mutual
/-- The literals of a rule. -/
def reals : Rule → List Float
  | .leaf _ _ => []
  | .choice condition yes no => condition.reals ++ (yes.reals ++ no.reals)
  | .guarded condition yes => condition.reals ++ yes.reals
  | .sequence statements => statementReals statements
def statementReals : List Statement → List Float
  | [] => []
  | .assign _ value :: rest => value.reals ++ statementReals rest
  | .rule rule :: rest => rule.reals ++ statementReals rest
end

/-- Commands as they are read, each expression and condition as what it denotes. -/
def read (places : Nat) :
    List (Command Expr Condition) → List (Command Term (Term × Comparison × Term)) :=
  Command.mapAll (Expr.term places) (Condition.comparing places)

@[simp] theorem read_append {places : Nat} (commands others : List (Command Expr Condition)) :
    read places (commands ++ others) = read places commands ++ read places others :=
  Command.mapAll_append

theorem read_ne_nil {places : Nat} {commands : List (Command Expr Condition)} (h : commands ≠ []) :
    read places commands ≠ [] :=
  fun hread => h (Command.mapAll_eq_nil_iff.mp hread)

end Rule

-- ---------------------------------------------------------------------------
-- Characters of expressions
-- ---------------------------------------------------------------------------

theorem Script.isNameChar_of_mem_natural {n : Nat} {c : Char} (h : c ∈ (toString n).toList) :
    isNameChar c = true := by
  rw [Nat.toString_eq_repr, Nat.toList_repr] at h
  exact isNameChar_of_isDigit (Decimal.isDigit_of_mem_toDigits h)

/-- The characters of names and numbers, and those around and between them. -/
def Expr.isChar (c : Char) : Bool :=
  Script.isNameChar c || [' ', '.', '+', '-', '*', '/', '(', ')'].contains c

theorem Expr.Grouped.all_render {first last places : Nat} {e : Expr} (h : e.Grouped first last) :
    (e.render places).toList.all isChar = true := by
  have hname {text : String} (h : ∀ c ∈ text.toList, Script.isNameChar c = true) :
      text.toList.all isChar = true :=
    List.all_eq_true.mpr fun c hc => by simp [isChar, h c hc]
  induction h with
  | var hn => exact hname (Script.isNameChar_of_isName hn)
  | real value =>
    refine List.all_eq_true.mpr fun c hc => ?_
    rcases Decimal.mem_literal hc with h | rfl | rfl
    · simp [isChar, Script.isNameChar, h]
    · rfl
    · rfl
  | int value => exact hname fun c => Script.isNameChar_of_mem_natural
  | euler =>
    simp [render]
    decide
  | neg hn _ =>
    have hminus : isChar '-' = true := rfl
    simp [render, hminus, hname (Script.isNameChar_of_isName hn)]
  | paren _ ih =>
    have hleft : isChar '(' = true := rfl
    have hright : isChar ')' = true := rfl
    simp [render, hleft, hright, ih]
  | @binary _ _ op left right _ _ _ _ ihl ihr =>
    have hblank : isChar ' ' = true := rfl
    have hop : op.symbol.toList.all isChar = true := by
      cases op <;> rfl
    simp [render, hblank, hop, ihl, ihr]

theorem Expr.Grouped.not_mem_render {first last places : Nat} {e : Expr} (h : e.Grouped first last)
    {c : Char} (hc : isChar c = false) : c ∉ (e.render places).toList := fun hmem => by
  simp [List.all_eq_true.mp h.all_render c hmem] at hc

theorem Condition.Grouped.feed_not_mem_render {places : Nat} {c : Condition} (h : c.Grouped) :
    '\n' ∉ (c.render places).toList := by
  have hop : '\n' ∉ c.op.symbol.toList := by
    cases c.op <;> simp [Comparison.symbol]
  have hleft : '\n' ∉ (c.left.render places).toList := h.left.not_mem_render rfl
  have hright : '\n' ∉ (c.right.render places).toList := h.right.not_mem_render rfl
  simp [render, hop, hleft, hright]

-- ---------------------------------------------------------------------------
-- Lines of rules
-- ---------------------------------------------------------------------------

namespace Rule

mutual
/-- Names that can be read, expressions that group as they stand, and branches that are not empty. -/
def Legible : Rule → Prop
  | .leaf target _ => Script.isName target.toList = true
  | .choice condition yes no =>
    condition.Grouped ∧ (yes.Legible ∧ yes.commands ≠ []) ∧ no.Legible ∧ no.commands ≠ []
  | .guarded condition yes => condition.Grouped ∧ yes.Legible ∧ yes.commands ≠ []
  | .sequence statements => StatementsLegible statements
def StatementsLegible : List Statement → Prop
  | [] => True
  | .assign name value :: rest =>
    (Script.isName name.toList = true ∧ value.Grouped 0 0) ∧ StatementsLegible rest
  | .rule rule :: rest => rule.Legible ∧ StatementsLegible rest
end

section
variable {places : Nat}

theorem denotes_assign {depth : Nat} {name : String} {value : Expr}
    (hn : Script.isName name.toList = true) (h : value.Grouped 0 0)
    (hf : ∀ x ∈ value.reals, x.isFinite = true) :
    Script.Denotes Script.term? Script.comparing? depth
      [⟨depth, name ++ " = " ++ value.render places⟩] [] (read places [.assign name value]) := by
  have hcolon : ':' ∉ (value.render places).toList := h.not_mem_render rfl
  exact .assign hn (h.term?_render hf) (h.not_mem_render rfl) fun hlast =>
    hcolon (List.mem_of_getLast? hlast)

mutual
theorem denotes_lines (depth : Nat) : (rule : Rule) → rule.Legible →
    (∀ x ∈ rule.reals, x.isFinite = true) →
    Script.Denotes Script.term? Script.comparing? depth (rule.lines places depth) []
      (read places rule.commands)
  | .leaf target classIndex, h, _ =>
    denotes_assign h (.int classIndex) (List.forall_mem_nil _)
  | .choice condition yes no, ⟨hgrouped, ⟨hyes, hne⟩, hno, hne'⟩, hf => by
    obtain ⟨hcondition, hf⟩ := List.forall_mem_append.mp hf
    obtain ⟨hfyes, hfno⟩ := List.forall_mem_append.mp hf
    exact .test (Condition.comparing?_render hgrouped hcondition) hgrouped.feed_not_mem_render
      (denotes_lines (depth + 1) yes hyes hfyes) (read_ne_nil hne)
      (.otherwise (denotes_lines (depth + 1) no hno hfno) (read_ne_nil hne'))
  | .guarded condition yes, ⟨hgrouped, hyes, hne⟩, hf => by
    obtain ⟨hcondition, hf⟩ := List.forall_mem_append.mp hf
    have htest : Script.comparing? (condition.render places).toList =
        some (condition.comparing places) :=
      Condition.comparing?_render hgrouped hcondition
    have hguarded := Script.Denotes.test htest hgrouped.feed_not_mem_render
      (denotes_lines (depth + 1) yes hyes hf) (read_ne_nil hne) .nil
    rwa [List.append_nil] at hguarded
  | .sequence statements, h, hf => denotes_statementLines depth statements h hf
theorem denotes_statementLines (depth : Nat) : (statements : List Statement) →
    StatementsLegible statements → (∀ x ∈ statementReals statements, x.isFinite = true) →
    Script.Denotes Script.term? Script.comparing? depth (statementLines places depth statements) []
      (read places (statementCommands statements))
  | [], _, _ => .nil
  | .assign name value :: rest, ⟨⟨hn, hvalue⟩, hrest⟩, hf => by
    obtain ⟨hfvalue, hf⟩ := List.forall_mem_append.mp hf
    exact (denotes_assign hn hvalue hfvalue).append (denotes_statementLines depth rest hrest hf)
  | .rule rule :: rest, ⟨hrule, hrest⟩, hf => by
    obtain ⟨hfrule, hf⟩ := List.forall_mem_append.mp hf
    simpa [statementLines, statementCommands] using
      (denotes_lines depth rule hrule hfrule).append (denotes_statementLines depth rest hrest hf)
end

end

end Rule

end FairProgram
