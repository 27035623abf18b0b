import FairProgram.Proofs.Program.Tokens

/-!
# Reading expressions by precedence

Powers bind tightest, then a leading minus, then products and quotients, then sums and differences;
operators of one precedence group to the left, and parentheses group what they hold. Expressions
whose operands are grouped this way as they stand (`Expr.Grouped`) read back from their tokens
(`Term.read?_tokens`) and from their text (`Expr.Grouped.term?_render`).
-/

namespace FairProgram

/-- Arithmetic as it is read, with numbers in place of literals. -/
inductive Term where
  | name (name : String)
  | number (value : ℚ)
  | neg (inner : Term)
  | paren (inner : Term)
  | binary (op : Operator) (left right : Term)

def Operator.precedence : Operator → Nat
  | .add | .sub => 1
  | .mul | .div => 2
  | .pow => 4

namespace Term

-- ---------------------------------------------------------------------------
-- Reading
-- ---------------------------------------------------------------------------

/-- What waits for its right operand. -/
inductive Pending where
  | neg
  | left (term : Term) (op : Operator)

def Pending.precedence : Pending → Nat
  | .neg => 3
  | .left _ op => op.precedence

def Pending.complete (operand : Term) : Pending → Term
  | .neg => .neg operand
  | .left term op => .binary op term operand

/-- Completes what binds at least as tightly as a precedence, from the last on. -/
def complete (precedence : Nat) : List Pending → Term → List Pending × Term
  | [], operand => ([], operand)
  | last :: before, operand =>
    if precedence ≤ last.precedence then complete precedence before (last.complete operand)
    else (last :: before, operand)

/-- What waits, in the parentheses that are open and around them, and the operand read last, if an
operator or the end may follow. -/
structure Progress where
  outer : List (List Pending)
  pending : List Pending
  operand : Option Term

def advance? : Progress → Token → Option Progress
  | ⟨outer, pending, none⟩, .name x => some ⟨outer, pending, some (.name x)⟩
  | ⟨outer, pending, none⟩, .number value => some ⟨outer, pending, some (.number value)⟩
  | ⟨outer, pending, none⟩, .op .sub => some ⟨outer, .neg :: pending, none⟩
  | ⟨outer, pending, none⟩, .left => some ⟨pending :: outer, [], none⟩
  | ⟨outer, pending, some operand⟩, .op op =>
    let (pending, operand) := complete op.precedence pending operand
    some ⟨outer, .left operand op :: pending, none⟩
  | ⟨before :: outer, pending, some operand⟩, .right =>
    some ⟨outer, before, some (.paren (complete 0 pending operand).2)⟩
  | _, _ => none

def read? (tokens : List Token) : Option Term :=
  match tokens.foldlM advance? ⟨[], [], none⟩ with
  | some ⟨[], pending, some operand⟩ => some (complete 0 pending operand).2
  | _ => none

end Term

-- ---------------------------------------------------------------------------
-- Expressions
-- ---------------------------------------------------------------------------

namespace Expr

/-- The literals of an expression. -/
def reals : Expr → List Float
  | .real value => [value]
  | .var _ | .int _ | .euler => []
  | .neg inner | .paren inner => inner.reals
  | .binary _ left right => left.reals ++ right.reals

/-- The term that an expression denotes: each literal is the number of its text. -/
def term (places : Nat) : Expr → Term
  | .var name => .name name
  | .real value => .number (Decimal.fixedValue value places)
  | .int value => .number value
  | .euler => .number (2718281828459045 / 10 ^ 15)
  | .neg inner => .neg (inner.term places)
  | .paren inner => .paren (inner.term places)
  | .binary op left right => .binary op (left.term places) (right.term places)

def tokens (places : Nat) : Expr → List Token
  | .var name => [.name name]
  | .real value => [.number (Decimal.fixedValue value places)]
  | .int value => [.number value]
  | .euler => [.number (2718281828459045 / 10 ^ 15)]
  | .neg inner => .op .sub :: inner.tokens places
  | .paren inner => .left :: (inner.tokens places ++ [.right])
  | .binary op left right => left.tokens places ++ .op op :: right.tokens places

/-- Names that can be read, and operands that group as precedence groups them. No operator at the
left edge binds less tightly than the first precedence, and none that waits at the right edge less
than the second. -/
inductive Grouped : Nat → Nat → Expr → Prop
  | var {first last : Nat} {name : String} :
      Script.isName name.toList = true → Grouped first last (.var name)
  | real {first last : Nat} (value : Float) : Grouped first last (.real value)
  | int {first last : Nat} (value : Nat) : Grouped first last (.int value)
  | euler {first last : Nat} : Grouped first last .euler
  | neg {first last : Nat} {name : String} :
      Script.isName name.toList = true → last ≤ 3 → Grouped first last (.neg (.var name))
  | paren {first last : Nat} {inner : Expr} : Grouped 0 0 inner → Grouped first last (.paren inner)
  | binary {first last : Nat} {op : Operator} {left right : Expr} :
      first ≤ op.precedence → last ≤ op.precedence → Grouped first op.precedence left →
      Grouped (op.precedence + 1) last right → Grouped first last (.binary op left right)

theorem Grouped.mono {first last first' last' : Nat} {e : Expr} (h : Grouped first last e)
    (hf : first' ≤ first) (hl : last' ≤ last) : Grouped first' last' e := by
  induction h generalizing first' last' with
  | var hn => exact .var hn
  | real value => exact .real value
  | int value => exact .int value
  | euler => exact .euler
  | neg hn h => exact .neg hn (Nat.le_trans hl h)
  | paren h _ => exact .paren h
  | binary hop hop' _ _ ihl ihr =>
    exact .binary (Nat.le_trans hf hop) (Nat.le_trans hl hop') (ihl hf (Nat.le_refl _))
      (ihr (Nat.le_refl _) hl)

end Expr

namespace Term

variable {precedence : Nat} {pending : List Pending} {operand : Term}

theorem complete_of_lt (h : ∀ last ∈ pending.head?, last.precedence < precedence) :
    complete precedence pending operand = (pending, operand) := by
  cases pending with
  | nil => rfl
  | cons last before => exact if_neg (Nat.not_le.mpr (h last rfl))

theorem complete_of_le {last : Pending} (h : precedence ≤ last.precedence) :
    complete precedence (last :: pending) operand =
      complete precedence pending (last.complete operand) :=
  if_pos h

/-- Reading an expression behind what binds less tightly leaves nothing waiting that a later operator
of the last precedence or less would not complete to the expression. -/
theorem foldlM_tokens {places first last : Nat} {e : Expr} (h : e.Grouped first last)
    (outer : List (List Pending)) (pending : List Pending)
    (hp : ∀ top ∈ pending.head?, top.precedence < first) :
    ∃ waiting operand,
      (e.tokens places).foldlM advance? ⟨outer, pending, none⟩ =
        some ⟨outer, waiting, some operand⟩ ∧
      ∀ precedence ≤ last,
        complete precedence waiting operand = complete precedence pending (e.term places) := by
  induction h generalizing outer pending with
  | var | real | int | euler => exact ⟨_, _, rfl, fun _ _ => rfl⟩
  | @neg first last name hn hl =>
    exact ⟨.neg :: pending, .name name, rfl, fun precedence hle =>
      complete_of_le (Nat.le_trans hle hl)⟩
  | @paren first last inner _ ih =>
    obtain ⟨waiting, operand, hread, hcomplete⟩ := ih (pending :: outer) [] (by simp)
    refine ⟨pending, .paren (complete 0 waiting operand).2, ?_, fun _ _ => ?_⟩
    · simp [Expr.tokens, advance?, hread]
    · rw [hcomplete 0 (Nat.le_refl 0)]
      rfl
  | @binary first last op left right hop hop' _ _ ihl ihr =>
    obtain ⟨waiting, operand, hread, hcomplete⟩ := ihl outer pending hp
    have hleft : complete op.precedence waiting operand = (pending, left.term places) := by
      rw [hcomplete _ (Nat.le_refl _)]
      exact complete_of_lt fun top htop => Nat.lt_of_lt_of_le (hp top htop) hop
    obtain ⟨waiting', operand', hread', hcomplete'⟩ :=
      ihr outer (.left (left.term places) op :: pending) (by simp [Pending.precedence])
    refine ⟨waiting', operand', ?_, fun precedence hle => ?_⟩
    · simp [Expr.tokens, hread, advance?, hleft, hread']
    · rw [hcomplete' precedence hle]
      exact complete_of_le (Nat.le_trans hle hop')

theorem read?_tokens {places : Nat} {e : Expr} (h : e.Grouped 0 0) :
    read? (e.tokens places) = some (e.term places) := by
  obtain ⟨waiting, operand, hread, hcomplete⟩ := foldlM_tokens h [] [] (by simp)
  rw [read?, hread]
  simp [hcomplete 0 (Nat.le_refl 0), complete]

/-- `a - b - c * -d ** e` groups as `(a - b) - (c * (-(d ** e)))`. -/
example : read? [.name "a", .op .sub, .name "b", .op .sub, .name "c", .op .mul, .op .sub,
    .name "d", .op .pow, .name "e"] =
    some (.binary .sub (.binary .sub (.name "a") (.name "b"))
      (.binary .mul (.name "c") (.neg (.binary .pow (.name "d") (.name "e"))))) :=
  rfl

end Term

-- ---------------------------------------------------------------------------
-- Texts
-- ---------------------------------------------------------------------------

namespace Expr

theorem Grouped.read?_tokens {first last : Nat} {e : Expr} (h : e.Grouped first last)
    (hf : ∀ x ∈ e.reals, x.isFinite = true) (places : Nat) :
    Token.read? (e.render places).toList = some (e.tokens places) := by
  induction h with
  | var hn => exact Token.read?_name hn
  | real value => exact Token.read?_literal (hf value List.mem_cons_self) places
  | int value => exact Token.read?_natural value
  | euler => exact Token.read?_euler
  | neg hn _ =>
    simpa [render, tokens] using Token.read?_neg hn
  | paren _ ih => simpa [render, tokens] using Token.read?_paren (ih hf)
  | @binary _ _ op left right _ _ _ _ ihl ihr =>
    obtain ⟨hl, hr⟩ := List.forall_mem_append.mp hf
    have hright := Token.read?_blank_append (Token.read?_op op) (ihr hr)
    simpa [render, tokens] using Token.read?_blank_append (ihl hl) hright

end Expr

/-- The value of an assignment. -/
def Script.term? (text : List Char) : Option Term :=
  (Token.read? text).bind Term.read?

namespace Term

def isComparison : Token → Bool
  | .comparison _ => true
  | _ => false

/-- Two terms with a comparison between them. -/
def comparing? (tokens : List Token) : Option (Term × Comparison × Term) :=
  match tokens.dropWhile fun token => !isComparison token with
  | .comparison op :: right => do
    let left ← read? (tokens.takeWhile fun token => !isComparison token)
    let right ← read? right
    return (left, op, right)
  | _ => none

end Term

/-- The test of a branch. -/
def Script.comparing? (text : List Char) : Option (Term × Comparison × Term) :=
  (Token.read? text).bind Term.comparing?

theorem Expr.not_isComparison_of_mem_tokens (places : Nat) (e : Expr) :
    ∀ token ∈ e.tokens places, (!Term.isComparison token) = true := by
  induction e with
  | var | real | int | euler => simp [tokens, Term.isComparison]
  | neg inner ih => exact List.forall_mem_cons.mpr ⟨rfl, ih⟩
  | paren inner ih =>
    have hright : ∀ token ∈ inner.tokens places ++ [.right],
        (!Term.isComparison token) = true :=
      List.forall_mem_append.mpr ⟨ih, List.forall_mem_singleton.mpr rfl⟩
    exact List.forall_mem_cons.mpr ⟨rfl, hright⟩
  | binary op left right ihl ihr =>
    exact List.forall_mem_append.mpr ⟨ihl, List.forall_mem_cons.mpr ⟨rfl, ihr⟩⟩

theorem Expr.Grouped.term?_render {places : Nat} {e : Expr} (h : e.Grouped 0 0)
    (hf : ∀ x ∈ e.reals, x.isFinite = true) :
    Script.term? (e.render places).toList = some (e.term places) := by
  rw [Script.term?, h.read?_tokens hf places]
  exact Term.read?_tokens h

namespace Condition

def reals (c : Condition) : List Float :=
  c.left.reals ++ c.right.reals

structure Grouped (c : Condition) : Prop where
  left : c.left.Grouped 0 0
  right : c.right.Grouped 0 0

/-- The comparison that a condition denotes. -/
def comparing (places : Nat) (c : Condition) : Term × Comparison × Term :=
  (c.left.term places, c.op, c.right.term places)

theorem comparing?_render {places : Nat} {c : Condition} (h : c.Grouped)
    (hf : ∀ x ∈ c.reals, x.isFinite = true) :
    Script.comparing? (c.render places).toList = some (c.comparing places) := by
  obtain ⟨hfl, hfr⟩ := List.forall_mem_append.mp hf
  have hright := Token.read?_blank_append (Token.read?_comparison c.op) (h.right.read?_tokens hfr places)
  have htokens : Token.read? (c.render places).toList =
      some (c.left.tokens places ++ .comparison c.op :: c.right.tokens places) := by
    simpa [render] using Token.read?_blank_append (h.left.read?_tokens hfl places) hright
  have hnone := c.left.not_isComparison_of_mem_tokens places
  have hcomparison : (!Term.isComparison (.comparison c.op)) = false := rfl
  rw [Script.comparing?, htokens, Option.bind_some, Term.comparing?,
    List.dropWhile_append_of_pos hnone, List.takeWhile_append_of_pos hnone]
  simp [hcomparison, Term.read?_tokens h.left, Term.read?_tokens h.right, comparing]

end Condition

end FairProgram
