import FairProgram.Proofs.Decimal.Literal
import FairProgram.Proofs.Program.Script

/-!
# Tokens of expressions

Names, numbers with their signs, operators, comparisons and parentheses, in the longest runs of
characters that belong together. The literal of a finite double is one number, its value rounded at
the last of its places (`Token.numeral?_literal`).
-/

namespace FairProgram

inductive Token where
  | name (name : String)
  | number (value : ℚ)
  | op (op : Operator)
  | comparison (op : Comparison)
  | left
  | right

/-- The number that the literal of a finite double denotes. -/
def Decimal.fixedValue (x : Float) (places : Nat) : ℚ :=
  (if (Double.ofFloat x).negative then -1 else 1) *
    ((fixedUnits (Double.ofFloat x) places : ℚ) / 10 ^ places)

namespace Token

-- ---------------------------------------------------------------------------
-- Numbers
-- ---------------------------------------------------------------------------

/-- Digits, and if there is a point, digits behind it. -/
def magnitude? (text : List Char) : Option ℚ :=
  let whole := text.takeWhile Char.isDigit
  if whole.isEmpty then none
  else match text.dropWhile Char.isDigit with
    | [] => some (Decimal.ofDigits whole : ℚ)
    | '.' :: fraction =>
      if fraction.isEmpty || !fraction.all Char.isDigit then none
      else some ((Decimal.ofDigits (whole ++ fraction) : ℚ) / 10 ^ fraction.length)
    | _ => none

def numeral? : List Char → Option ℚ
  | '-' :: text => (magnitude? text).map (- ·)
  | text => magnitude? text

theorem magnitude?_digits {whole fraction : List Char} (hne : whole ≠ [])
    (hall : ∀ c ∈ whole ++ fraction, c.isDigit = true) :
    magnitude? (whole ++ Decimal.point fraction) =
      some ((Decimal.ofDigits (whole ++ fraction) : ℚ) / 10 ^ fraction.length) := by
  obtain ⟨hwhole, hfraction⟩ := List.forall_mem_append.mp hall
  have hempty : whole.isEmpty = false := List.isEmpty_eq_false_iff.mpr hne
  have hpoint : ('.' : Char).isDigit = false := rfl
  cases fraction with
  | nil =>
    simp [magnitude?, Decimal.point, List.takeWhile_eq_self_iff.mpr hwhole,
      List.dropWhile_eq_nil_iff.mpr hwhole, hempty]
  | cons c rest =>
    have hdigits : (c :: rest).all Char.isDigit = true := List.all_eq_true.mpr hfraction
    simp [magnitude?, Decimal.point, List.takeWhile_append_of_pos hwhole,
      List.dropWhile_append_of_pos hwhole, hpoint, hempty, hdigits]

theorem numeral?_magnitude (units places : Nat) :
    numeral? (Decimal.magnitude units places).toList = some ((units : ℚ) / 10 ^ places) ∧
    numeral? ('-' :: (Decimal.magnitude units places).toList) =
      some (-((units : ℚ) / 10 ^ places)) := by
  obtain ⟨whole, fraction, htext, hne, hall, hlen, hunits⟩ :=
    Decimal.magnitude_digits units places
  have hmagnitude := magnitude?_digits hne hall
  rw [hunits, hlen] at hmagnitude
  rw [htext]
  refine ⟨?_, by rw [numeral?, hmagnitude, Option.map_some]⟩
  -- A digit comes first, and no sign.
  cases whole with
  | nil => exact absurd rfl hne
  | cons c rest =>
    have hc : c ≠ '-' := by
      rintro rfl
      exact absurd (hall '-' List.mem_cons_self) (by decide)
    unfold numeral?
    split
    · simp_all
    · exact hmagnitude

theorem numeral?_literal {x : Float} (h : x.isFinite = true) (places : Nat) :
    numeral? (Decimal.literal x places).toList = some (Decimal.fixedValue x places) := by
  rw [Decimal.literal_of_isFinite h, Decimal.fixedValue]
  generalize Decimal.fixedUnits (Double.ofFloat x) places = units
  obtain ⟨hplus, hminus⟩ := numeral?_magnitude units places
  cases hn : (Double.ofFloat x).negative with
  | false => simpa using hplus
  | true =>
    by_cases hu : units = 0
    · subst hu
      simpa using hplus
    · simpa [hu] using hminus

-- ---------------------------------------------------------------------------
-- Lexemes
-- ---------------------------------------------------------------------------

def isWordChar (c : Char) : Bool :=
  Script.isNameChar c || c == '.'

/-- Characters side by side in one token: letters, digits and points, a minus and a digit, and the two
characters of a power. -/
def joined (c d : Char) : Bool :=
  isWordChar c && isWordChar d || c == '-' && d.isDigit || c == '*' && d == '*'

def symbol? : List Char → Option Token
  | ['('] => some .left
  | [')'] => some .right
  | ['+'] => some (.op .add)
  | ['-'] => some (.op .sub)
  | ['*'] => some (.op .mul)
  | ['/'] => some (.op .div)
  | ['*', '*'] => some (.op .pow)
  | ['>'] => some (.comparison .greater)
  | ['<'] => some (.comparison .less)
  | _ => none

def ofLexeme? (text : List Char) : Option Token :=
  if Script.isName text then some (.name (String.ofList text))
  else match numeral? text with
    | some value => some (.number value)
    | none => symbol? text

/-- The tokens of a text, with the blanks between them left out. -/
def read? (text : List Char) : Option (List Token) :=
  ((text.splitBy joined).filter (· != [' '])).mapM ofLexeme?

variable {text others : List Char} {tokens more : List Token}

theorem read?_append (h : read? text = some tokens) (h' : read? others = some more)
    (hapart : ∀ c ∈ text.getLast?, ∀ d ∈ others.head?, joined c d = false) :
    read? (text ++ others) = some (tokens ++ more) := by
  rw [read?] at h h' ⊢
  rw [List.splitBy_append hapart, List.filter_append, List.mapM_append, h, h']
  rfl

theorem read?_lexeme {token : Token} (hne : text ≠ []) (hchain : text.IsChain (joined · · = true))
    (hblank : text ≠ [' ']) (h : ofLexeme? text = some token) : read? text = some [token] := by
  simp [read?, List.splitBy_of_isChain hne hchain, hblank, h]

theorem read?_blank : read? [' '] = some [] := by
  simp [read?, List.splitBy_of_isChain (List.cons_ne_nil ' ' []) (List.isChain_singleton ' ')]

theorem joined_eq_false_left {c : Char} (hc : isWordChar c = false) (hminus : c ≠ '-')
    (htimes : c ≠ '*') (d : Char) : joined c d = false := by
  simp [joined, hc, hminus, htimes]

theorem joined_eq_false_right {d : Char} (hd : isWordChar d = false) (htimes : d ≠ '*') (c : Char) :
    joined c d = false := by
  have hdigit : d.isDigit = false := by
    rw [Bool.eq_false_iff]
    intro h
    simp [isWordChar, Script.isNameChar_of_isDigit h] at hd
  simp [joined, hd, hdigit, htimes]

theorem read?_blank_append (h : read? text = some tokens) (h' : read? others = some more) :
    read? (text ++ ' ' :: others) = some (tokens ++ more) := by
  have hblank : isWordChar ' ' = false := rfl
  have hothers : read? ([' '] ++ others) = some ([] ++ more) :=
    read?_append read?_blank h' fun c hc d _ => by
      obtain rfl : ' ' = c := by simpa using hc
      exact joined_eq_false_left hblank (by decide) (by decide) d
  refine read?_append h hothers fun c _ d hd => ?_
  obtain rfl : ' ' = d := by simpa using hd
  exact joined_eq_false_right hblank (by decide) c

theorem isChain_of_isWordChar (h : ∀ c ∈ text, isWordChar c = true) :
    text.IsChain (joined · · = true) := by
  refine (List.pairwise_of_forall_mem_list fun c hc d hd => ?_).isChain
  simp [joined, h c hc, h d hd]

-- ---------------------------------------------------------------------------
-- The tokens of names, numbers and operators
-- ---------------------------------------------------------------------------

theorem numeral?_of_isName (h : Script.isName text = true) : numeral? text = none := by
  cases text with
  | nil => rfl
  | cons c rest =>
    obtain ⟨hall, hdigit⟩ := Bool.and_eq_true_iff.mp h
    have hdigit : c.isDigit = false := by simpa using hdigit
    have hc : c ≠ '-' := by
      rintro rfl
      exact absurd (List.all_eq_true.mp hall '-' List.mem_cons_self) (by decide)
    unfold numeral?
    split
    · simp_all
    · simp [magnitude?, hdigit]

theorem read?_name {name : String} (h : Script.isName name.toList = true) :
    read? name.toList = some [.name name] := by
  have hchars := Script.isNameChar_of_isName h
  have hne : name.toList ≠ [] := by
    intro hnil
    simp [hnil, Script.isName] at h
  refine read?_lexeme hne (isChain_of_isWordChar fun c hc => ?_) ?_ ?_
  · simp [isWordChar, hchars c hc]
  · intro hblank
    exact absurd (hchars ' ' (by simp [hblank])) (by decide)
  · simp [ofLexeme?, h]

theorem read?_number {value : ℚ} (hv : numeral? text = some value)
    (hchain : text.IsChain (joined · · = true)) :
    read? text = some [.number value] := by
  refine read?_lexeme ?_ hchain ?_ ?_
  · rintro rfl
    cases hv
  · rintro rfl
    cases hv
  · have hname : Script.isName text = false := by
      rw [Bool.eq_false_iff]
      intro h
      rw [numeral?_of_isName h] at hv
      cases hv
    simp [ofLexeme?, hname, hv]

theorem isChain_magnitude (units places : Nat) :
    (Decimal.magnitude units places).toList.IsChain (joined · · = true) ∧
    ('-' :: (Decimal.magnitude units places).toList).IsChain (joined · · = true) := by
  obtain ⟨whole, fraction, htext, hne, hall, -⟩ := Decimal.magnitude_digits units places
  have hdigit {c : Char} (h : c.isDigit = true) : isWordChar c = true := by
    simp [isWordChar, Script.isNameChar_of_isDigit h]
  have hword : ∀ c ∈ whole ++ Decimal.point fraction, isWordChar c = true := by
    intro c hc
    rcases List.mem_append.mp hc with hc | hc
    · exact hdigit (hall c (List.mem_append_left _ hc))
    · rcases Decimal.mem_point hc with rfl | hc
      · rfl
      · exact hdigit (hall c (List.mem_append_right _ hc))
  have hchain := isChain_of_isWordChar hword
  rw [htext]
  cases whole with
  | nil => exact absurd rfl hne
  | cons c rest =>
    have hc : joined '-' c = true := by simp [joined, hall c List.mem_cons_self]
    exact ⟨hchain, List.isChain_cons_cons.mpr ⟨hc, hchain⟩⟩

theorem read?_magnitude (units places : Nat) :
    read? (Decimal.magnitude units places).toList = some [.number ((units : ℚ) / 10 ^ places)] ∧
    read? ('-' :: (Decimal.magnitude units places).toList) =
      some [.number (-((units : ℚ) / 10 ^ places))] := by
  obtain ⟨hplus, hminus⟩ := numeral?_magnitude units places
  obtain ⟨hchain, hchain'⟩ := isChain_magnitude units places
  exact ⟨read?_number hplus hchain, read?_number hminus hchain'⟩

theorem read?_literal {x : Float} (h : x.isFinite = true) (places : Nat) :
    read? (Decimal.literal x places).toList = some [.number (Decimal.fixedValue x places)] := by
  have hnumeral := numeral?_literal h places
  obtain ⟨hplus, hminus⟩ := isChain_magnitude (Decimal.fixedUnits (Double.ofFloat x) places) places
  refine read?_number hnumeral ?_
  rw [Decimal.literal_of_isFinite h]
  split
  · simpa using hminus
  · simpa using hplus

theorem read?_natural (n : Nat) : read? (toString n).toList = some [.number n] := by
  simpa [Decimal.magnitude] using (read?_magnitude n 0).1

theorem read?_euler : read? "2.718281828459045".toList =
    some [.number (2718281828459045 / 10 ^ 15)] := by
  have htext : (Decimal.magnitude 2718281828459045 15).toList = "2.718281828459045".toList := by
    rfl
  exact htext ▸ (read?_magnitude 2718281828459045 15).1

theorem read?_op (op : Operator) : read? op.symbol.toList = some [.op op] := by
  have hchain : op.symbol.toList.IsChain (joined · · = true) := by
    cases op <;> simp [Operator.symbol, joined]
  have hlexeme : ofLexeme? op.symbol.toList = some (.op op) := by
    cases op <;> rfl
  refine read?_lexeme ?_ hchain ?_ hlexeme <;> cases op <;> simp [Operator.symbol]

theorem read?_comparison (op : Comparison) : read? op.symbol.toList = some [.comparison op] := by
  have hchain : op.symbol.toList.IsChain (joined · · = true) := by
    cases op <;> simp [Comparison.symbol]
  have hlexeme : ofLexeme? op.symbol.toList = some (.comparison op) := by
    cases op <;> rfl
  refine read?_lexeme ?_ hchain ?_ hlexeme <;> cases op <;> simp [Comparison.symbol]

theorem read?_neg {name : String} (h : Script.isName name.toList = true) :
    read? ('-' :: name.toList) = some [.op .sub, .name name] := by
  have hminus : read? ['-'] = some [.op .sub] := read?_op .sub
  have hapart : ∀ c ∈ ['-'].getLast?, ∀ d ∈ name.toList.head?, joined c d = false := by
    intro c hc d hd
    obtain rfl : '-' = c := by simpa using hc
    have hhead := (Bool.and_eq_true_iff.mp h).2
    rw [Option.mem_def.mp hd] at hhead
    have hword : isWordChar '-' = false := rfl
    simpa [joined, hword] using hhead
  exact read?_append hminus (read?_name h) hapart

theorem read?_paren (h : read? text = some tokens) :
    read? ('(' :: (text ++ [')'])) = some (.left :: (tokens ++ [.right])) := by
  have hleft : read? ['('] = some [.left] :=
    read?_lexeme (by simp) (List.isChain_singleton _) (by simp) rfl
  have hright : read? [')'] = some [.right] :=
    read?_lexeme (by simp) (List.isChain_singleton _) (by simp) rfl
  have hinner := read?_append h hright fun c _ d hd => by
    obtain rfl : ')' = d := by simpa using hd
    exact joined_eq_false_right rfl (by decide) c
  exact read?_append hleft hinner fun c hc d _ => by
    obtain rfl : '(' = c := by simpa using hc
    exact joined_eq_false_left rfl (by decide) (by decide) d

end Token

end FairProgram
