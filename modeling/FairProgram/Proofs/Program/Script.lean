import FairProgram.Program.Block
import FairProgram.Proofs.Program.Outline

/-!
# Programs as they are read

The statements of a block: assignments, and chains of `if`, `elif` and `else` whose bodies are the
deeper lines behind each of them. What the values and the tests say is left to the two readers given.
Lines that denote commands (`Script.Denotes`) compose, and a block of such lines reads as their
commands, whatever declarations follow them (`Script.read?_block`).
-/

namespace FairProgram

/-- The statements of a procedure. An `elif` is a branch that is alone behind an `else`; a branch
without `else` has nothing to do there. -/
inductive Command (ν τ : Type) where
  | assign (name : String) (value : ν)
  | branch (test : τ) (yes no : List (Command ν τ))

namespace Command

mutual
def map {ν τ ν' τ' : Type} (f : ν → ν') (g : τ → τ') : Command ν τ → Command ν' τ'
  | .assign name value => .assign name (f value)
  | .branch test yes no => .branch (g test) (mapAll f g yes) (mapAll f g no)
def mapAll {ν τ ν' τ' : Type} (f : ν → ν') (g : τ → τ') :
    List (Command ν τ) → List (Command ν' τ')
  | [] => []
  | command :: rest => command.map f g :: mapAll f g rest
end

variable {ν τ ν' τ' : Type} {f : ν → ν'} {g : τ → τ'} {commands others : List (Command ν τ)}

@[simp] theorem mapAll_append :
    mapAll f g (commands ++ others) = mapAll f g commands ++ mapAll f g others := by
  induction commands with
  | nil => rfl
  | cons command rest ih => simp [mapAll, ih]

@[simp] theorem mapAll_eq_nil_iff : mapAll f g commands = [] ↔ commands = [] := by
  cases commands <;> simp [mapAll]

end Command

namespace Script

-- ---------------------------------------------------------------------------
-- Reading
-- ---------------------------------------------------------------------------

def isNameChar (c : Char) : Bool :=
  c.isAlphanum || c == '_' || 127 < c.toNat

/-- Letters, digits and underscores, the first of them no digit. -/
def isName (chars : List Char) : Bool :=
  chars.all isNameChar && chars.head?.any (!·.isDigit)

/-- What a line begins: an assignment, or a body behind `if`, `elif` or `else`. -/
inductive Head (ν τ : Type) where
  | assign (name : String) (value : ν)
  | test (test : τ)
  | retest (test : τ)
  | otherwise

/-- Commands behind a place, and the body of an `elif` or `else` that they start with, if any. -/
structure Reading (ν τ : Type) where
  alternative : List (Command ν τ)
  commands : List (Command ν τ)

section
variable {ν τ : Type}

/-- A head with its body in front of a reading. An `elif` or `else` must follow an `if` or `elif`,
and only these three have a body. -/
def Head.prepend? (body : List (Command ν τ)) (behind : Reading ν τ) :
    Head ν τ → Option (Reading ν τ)
  | .assign name value =>
    if body.isEmpty && behind.alternative.isEmpty then
      some ⟨[], .assign name value :: behind.commands⟩
    else none
  | .test condition =>
    if body.isEmpty then none
    else some ⟨[], .branch condition body behind.alternative :: behind.commands⟩
  | .retest condition =>
    if body.isEmpty then none
    else some ⟨[.branch condition body behind.alternative], behind.commands⟩
  | .otherwise =>
    if body.isEmpty || !behind.alternative.isEmpty then none else some ⟨body, behind.commands⟩

/-- The commands of a reading that does not start with an `elif` or `else`. -/
def Reading.whole? (r : Reading ν τ) : Option (List (Command ν τ)) :=
  if r.alternative.isEmpty then some r.commands else none

variable (value? : List Char → Option ν) (test? : List Char → Option τ)

/-- What stands before the colon of a line with a body. -/
def opening? : List Char → Option (Head ν τ)
  | ['e', 'l', 's', 'e'] => some .otherwise
  | 'i' :: 'f' :: ' ' :: test => (test? test).map .test
  | 'e' :: 'l' :: 'i' :: 'f' :: ' ' :: test => (test? test).map .retest
  | _ => none

def assignment? (content : List Char) : Option (Head ν τ) :=
  let name := content.takeWhile isNameChar
  match content.dropWhile isNameChar with
  | ' ' :: '=' :: ' ' :: value =>
    if isName name then (value? value).map (.assign (String.ofList name)) else none
  | _ => none

/-- A line that ends in a colon begins a body; any other line is an assignment. -/
def head? (content : List Char) : Option (Head ν τ) :=
  if content.getLast? = some ':' then opening? test? content.dropLast
  else assignment? value? content

mutual
def outline? (behind : Reading ν τ) : Outline → Option (Reading ν τ)
  | .mk content body => do
    let head ← head? value? test? content.toList
    let inner ← forest? body
    head.prepend? (← inner.whole?) behind
def forest? : List Outline → Option (Reading ν τ)
  | [] => some ⟨[], []⟩
  | outline :: rest => do outline? (← forest? rest) outline
end

end

/-- What declares predicates. The first such line ends the statements of a block. -/
def keywords : List String :=
  ["sensitiveAttribute", "qualified", "fairnessTarget"]

def isDeclaration (line : Line) : Bool :=
  keywords.any fun keyword => (keyword ++ "(").toList.isPrefixOf line.content.toList

/-- The statements of the procedure of a name, up to its first declaration. -/
def read? {ν τ : Type} (value? : List Char → Option ν) (test? : List Char → Option τ)
    (name text : String) : Option (List (Command ν τ)) :=
  match Line.split text with
  | [] => none
  | header :: rest => do
    guard (header.indent = 0 ∧ header.content = "def " ++ name ++ "():")
    let outlines ← Outline.read? 1 (rest.takeWhile fun line => !isDeclaration line)
    (← forest? value? test? outlines).whole?

-- ---------------------------------------------------------------------------
-- Heads
-- ---------------------------------------------------------------------------

section
variable {ν τ : Type} {value? : List Char → Option ν} {test? : List Char → Option τ}

theorem isNameChar_of_isName {name : List Char} (h : isName name = true) :
    ∀ c ∈ name, isNameChar c = true :=
  List.all_eq_true.mp (Bool.and_eq_true_iff.mp h).1

theorem isNameChar_of_isDigit {c : Char} (h : c.isDigit = true) : isNameChar c = true := by
  simp [isNameChar, Char.isAlphanum, h]

theorem feed_not_mem_of_isName {name : List Char} (h : isName name = true) : '\n' ∉ name :=
  fun hfeed => absurd (isNameChar_of_isName h _ hfeed) (by decide)

theorem getLast?_assign {name text : String} (h : text.toList.getLast? ≠ some ':') :
    (name ++ " = " ++ text).toList.getLast? ≠ some ':' := by
  rw [String.toList_append, List.getLast?_append]
  cases hl : text.toList.getLast? with
  | none => simp
  | some c => simpa [hl] using h

theorem head?_assign {name text : String} {value : ν} (hn : isName name.toList = true)
    (hv : value? text.toList = some value) (hcolon : text.toList.getLast? ≠ some ':') :
    head? value? test? (name ++ " = " ++ text).toList = some (.assign name value) := by
  have hcontent : (name ++ " = " ++ text).toList =
      name.toList ++ ' ' :: '=' :: ' ' :: text.toList := by
    simp
  have hblank : isNameChar ' ' = false := rfl
  have hchars := isNameChar_of_isName hn
  rw [head?, if_neg (getLast?_assign hcolon), hcontent, assignment?,
    List.takeWhile_append_of_pos hchars, List.dropWhile_append_of_pos hchars]
  simp [hblank, hn, hv]

theorem head?_colon (text : List Char) :
    head? value? test? (text ++ [':']) = opening? test? text := by
  simp [head?]

theorem head?_test {text : String} {test : τ} (h : test? text.toList = some test) :
    head? value? test? ("if " ++ text ++ ":").toList = some (.test test) := by
  have hcontent : ("if " ++ text ++ ":").toList = ('i' :: 'f' :: ' ' :: text.toList) ++ [':'] := by
    simp
  rw [hcontent, head?_colon, opening?, h, Option.map_some]

theorem head?_retest {text : String} {test : τ} (h : test? text.toList = some test) :
    head? value? test? ("elif " ++ text ++ ":").toList = some (.retest test) := by
  have hcontent : ("elif " ++ text ++ ":").toList =
      ('e' :: 'l' :: 'i' :: 'f' :: ' ' :: text.toList) ++ [':'] := by
    simp
  rw [hcontent, head?_colon, opening?, h, Option.map_some]

theorem head?_otherwise : head? value? test? "else:".toList = some .otherwise :=
  rfl

theorem opening?_ok {text : List Char} {head : Head ν τ} (h : opening? test? text = some head) :
    text = "else".toList ∨ "if ".toList <+: text ∨ "elif ".toList <+: text := by
  unfold opening? at h
  split at h
  · exact .inl rfl
  · exact .inr (.inl ⟨_, rfl⟩)
  · exact .inr (.inr ⟨_, rfl⟩)
  · cases h

theorem assignment?_ok {content : List Char} {head : Head ν τ}
    (h : assignment? value? content = some head) :
    isName (content.takeWhile isNameChar) = true ∧
      ∃ rest, content.dropWhile isNameChar = ' ' :: rest := by
  unfold assignment? at h
  split at h
  · rename_i value hdrop
    dsimp only at h
    split at h
    · exact ⟨‹_›, _, hdrop⟩
    · cases h
  · cases h

theorem isNameChar_of_mem_keywords :
    ∀ keyword ∈ keywords, ∀ c ∈ keyword.toList, isNameChar c = true := by
  simp [keywords]
  decide

theorem isDeclaration_iff {line : Line} : isDeclaration line = true ↔
    ∃ keyword ∈ keywords, keyword.toList ++ ['('] <+: line.content.toList := by
  simp [isDeclaration]

/-- What begins a statement neither is a declaration nor starts with a tab. -/
theorem head?_ok (line : Line) {head : Head ν τ}
    (h : head? value? test? line.content.toList = some head) :
    (∀ c ∈ line.content.toList.head?, c ≠ '\t') ∧ isDeclaration line = false := by
  rw [Bool.eq_false_iff, ne_eq, isDeclaration_iff]
  generalize line.content.toList = content at h ⊢
  unfold head? at h
  split at h
  · rename_i hcolon
    rw [← List.dropLast_append_getLast? ':' hcolon]
    rcases opening?_ok h with htext | ⟨rest, htext⟩ | ⟨rest, htext⟩
    · rw [htext]
      constructor <;> simp [keywords]
    · rw [← htext]
      constructor <;> simp [keywords]
    · rw [← htext]
      constructor <;> simp [keywords]
  · obtain ⟨hname, rest, hdrop⟩ := assignment?_ok h
    constructor
    · intro c hc htab
      have hnone : content.takeWhile isNameChar = [] := by
        cases content with
        | nil => rfl
        | cons first rest =>
          obtain rfl : first = c := by simpa using hc
          simp [htab, show isNameChar '\t' = false by rfl]
      simp [hnone, isName] at hname
    · rintro ⟨keyword, hk, tail, rfl⟩
      rw [List.append_assoc,
        List.dropWhile_append_of_pos (isNameChar_of_mem_keywords keyword hk)] at hdrop
      cases hdrop

end

end Script

-- ---------------------------------------------------------------------------
-- Lines that denote commands
-- ---------------------------------------------------------------------------

/-- Each line that ends in a colon is followed by a deeper one. -/
def Line.Opened : List Line → Prop
  | [] => True
  | line :: rest =>
    (line.content.toList.getLast? = some ':' → ∃ next ∈ rest.head?, line.indent < next.indent) ∧
      Opened rest

theorem Line.Opened.append {lines others : List Line} (h : Opened lines) (h' : Opened others) :
    Opened (lines ++ others) := by
  induction lines with
  | nil => exact h'
  | cons line rest ih =>
    refine ⟨fun hcolon => ?_, ih h.2⟩
    obtain ⟨next, hnext, hlt⟩ := h.1 hcolon
    exact ⟨next, by simp_all, hlt⟩

namespace Script

section
variable {ν τ : Type} (value? : List Char → Option ν) (test? : List Char → Option τ)

/-- Lines at a depth that read as an alternative to what stands before them and as commands behind
it, and can stand in front of further statements. -/
structure Denotes (depth : Nat) (lines : List Line) (alternative commands : List (Command ν τ)) :
    Prop where
  nested : ∃ forest, lines = Outline.forestLines depth forest ∧
    ∀ rest behind, forest? value? test? rest = some ⟨[], behind⟩ →
      forest? value? test? (forest ++ rest) = some ⟨alternative, commands ++ behind⟩
  plain : ∀ line ∈ lines, line.Plain ∧ isDeclaration line = false
  opened : Line.Opened lines

namespace Denotes

variable {value? test?} {depth : Nat} {lines others : List Line}
  {alternative commands later : List (Command ν τ)}

theorem nil : Denotes value? test? depth [] [] [] :=
  ⟨⟨[], rfl, fun _ _ h => h⟩, by simp, trivial⟩

theorem append (h : Denotes value? test? depth lines alternative commands)
    (h' : Denotes value? test? depth others [] later) :
    Denotes value? test? depth (lines ++ others) alternative (commands ++ later) := by
  obtain ⟨forest, rfl, hread⟩ := h.nested
  obtain ⟨forest', rfl, hread'⟩ := h'.nested
  refine ⟨⟨forest ++ forest', ?_, fun rest behind hrest => ?_⟩, ?_, h.opened.append h'.opened⟩
  · rw [Outline.forestLines_append]
  · rw [List.append_assoc, List.append_assoc]
    exact hread _ _ (hread' rest behind hrest)
  · exact List.forall_mem_append.mpr ⟨h.plain, h'.plain⟩

/-- Lines that denote commands start at their depth, if there are any commands. -/
theorem exists_head (h : Denotes value? test? depth lines [] commands) (hne : commands ≠ []) :
    ∃ first ∈ lines.head?, first.indent = depth := by
  obtain ⟨forest, rfl, hread⟩ := h.nested
  cases forest with
  | nil =>
    have hread := hread [] [] rfl
    simp_all [forest?]
  | cons outline rest =>
    cases outline
    exact ⟨_, rfl, rfl⟩

/-- A line with its body, in front of the rest of its chain. -/
theorem head {content : String} {head : Head ν τ} {inner no : List (Command ν τ)}
    (h : head? value? test? content.toList = some head) (hfeed : '\n' ∉ content.toList)
    (hbody : Denotes value? test? (depth + 1) lines [] inner)
    (hinner : content.toList.getLast? = some ':' → inner ≠ [])
    (hrest : Denotes value? test? depth others no [])
    (hprepend : ∀ behind, head.prepend? inner ⟨no, behind⟩ =
      some ⟨alternative, commands ++ behind⟩) :
    Denotes value? test? depth (⟨depth, content⟩ :: (lines ++ others)) alternative commands where
  nested := by
    obtain ⟨body, rfl, hread⟩ := hbody.nested
    obtain ⟨chain, rfl, hchain⟩ := hrest.nested
    refine ⟨.mk content body :: chain, rfl, fun rest behind hrest => ?_⟩
    have hbody : forest? value? test? body = some ⟨[], inner⟩ := by
      simpa [forest?] using hread [] [] rfl
    have hbehind := hchain rest behind hrest
    simp [forest?, outline?, hbehind, h, hbody, Reading.whole?, hprepend]
  plain := by
    obtain ⟨htab, hdeclaration⟩ := head?_ok ⟨depth, content⟩ h
    refine List.forall_mem_cons.mpr ⟨⟨⟨hfeed, htab⟩, hdeclaration⟩, ?_⟩
    exact List.forall_mem_append.mpr ⟨hbody.plain, hrest.plain⟩
  opened := by
    refine ⟨fun hcolon => ?_, hbody.opened.append hrest.opened⟩
    obtain ⟨first, hfirst, hindent⟩ := hbody.exists_head (hinner hcolon)
    exact ⟨first, by simp_all, by simp [hindent]⟩

variable {name text : String} {value : ν} {condition : τ} {yes no : List (Command ν τ)}

theorem assign (hn : isName name.toList = true) (hv : value? text.toList = some value)
    (hfeed : '\n' ∉ text.toList) (hcolon : text.toList.getLast? ≠ some ':') :
    Denotes value? test? depth [⟨depth, name ++ " = " ++ text⟩] [] [.assign name value] := by
  have hname := feed_not_mem_of_isName hn
  exact head (head?_assign hn hv hcolon) (by simp [hname, hfeed]) nil
    (absurd · (getLast?_assign hcolon)) nil fun _ => rfl

theorem test (h : test? text.toList = some condition) (hfeed : '\n' ∉ text.toList)
    (hyes : Denotes value? test? (depth + 1) lines [] yes) (hne : yes ≠ [])
    (hno : Denotes value? test? depth others no []) :
    Denotes value? test? depth (⟨depth, "if " ++ text ++ ":"⟩ :: (lines ++ others)) []
      [.branch condition yes no] :=
  head (head?_test h) (by simp [hfeed]) hyes (fun _ => hne) hno fun _ => by
    simp [Head.prepend?, hne]

theorem retest (h : test? text.toList = some condition) (hfeed : '\n' ∉ text.toList)
    (hyes : Denotes value? test? (depth + 1) lines [] yes) (hne : yes ≠ [])
    (hno : Denotes value? test? depth others no []) :
    Denotes value? test? depth (⟨depth, "elif " ++ text ++ ":"⟩ :: (lines ++ others))
      [.branch condition yes no] [] :=
  head (head?_retest h) (by simp [hfeed]) hyes (fun _ => hne) hno fun _ => by
    simp [Head.prepend?, hne]

theorem otherwise (hno : Denotes value? test? (depth + 1) lines [] no) (hne : no ≠ []) :
    Denotes value? test? depth (⟨depth, "else:"⟩ :: lines) no [] := by
  have h : Denotes value? test? depth (⟨depth, "else:"⟩ :: (lines ++ [])) no [] :=
    head head?_otherwise (by simp) hno (fun _ => hne) nil fun _ => by simp [Head.prepend?, hne]
  simpa using h

end Denotes

end

-- ---------------------------------------------------------------------------
-- Blocks
-- ---------------------------------------------------------------------------

theorem isDeclaration_declaration {keyword : String} (h : keyword ∈ keywords) (places : Nat)
    (p : Predicate) : isDeclaration (p.declaration places keyword) = true :=
  isDeclaration_iff.mpr ⟨keyword, h, by simp [Predicate.declaration]⟩

theorem splitOn_append {start : List Char} (h : '\n' ∉ start) (rest : List Char) :
    ∃ first later, (start ++ rest).splitOn '\n' = (start ++ first) :: later := by
  simp only [List.splitOn_eq_splitOnP]
  induction start with
  | nil => exact List.exists_cons_of_ne_nil (List.splitOnP_ne_nil _ _)
  | cons c start ih =>
    simp only [List.mem_cons, not_or] at h
    obtain ⟨first, later, heq⟩ := ih h.2
    have hc : (c == '\n') = false := beq_eq_false_iff_ne.mpr (Ne.symm h.1)
    exact ⟨first, later, by simp [List.splitOnP_cons_eq_if_modifyHead, heq, hc]⟩

/-- Whatever a declaration goes on with, line feeds included, its first line is a declaration. -/
theorem split_declaration {line : Line} (h : isDeclaration line = true) (rest : String) :
    ∃ first later, Line.split (line.text ++ rest) = first :: later ∧
      isDeclaration first = true := by
  obtain ⟨keyword, hk, tail, htail⟩ := isDeclaration_iff.mp h
  have hchars := isNameChar_of_mem_keywords keyword hk
  have htext : line.text = String.ofList (List.replicate line.indent '\t' ++
      (keyword.toList ++ ['('] ++ tail)) ++ "\n" := by
    simp only [htail, Line.text, String.ofList_append, String.ofList_toList]
  have hstart : '\n' ∉ List.replicate line.indent '\t' ++ (keyword.toList ++ ['(']) := by
    have hkeyword : '\n' ∉ keyword.toList := fun hc => absurd (hchars _ hc) (by decide)
    simp [hkeyword]
  have htab : ∀ first, ∀ c ∈ (keyword.toList ++ ['('] ++ first).head?, c ≠ '\t' := by
    rintro first c hc rfl
    cases hkeyword : keyword.toList with
    | nil => simp [hkeyword] at hc
    | cons d rest =>
      obtain rfl : d = '\t' := by simpa [hkeyword] using hc
      exact absurd (hchars '\t' (by simp [hkeyword])) (by decide)
  obtain ⟨first, later, hsplit⟩ := splitOn_append hstart tail
  refine ⟨⟨line.indent, String.ofList (keyword.toList ++ ['('] ++ first)⟩,
    later.map Line.ofChars ++ Line.split rest, ?_, ?_⟩
  · rw [htext, Line.split_append, ← List.append_assoc, hsplit, List.map_cons, List.append_assoc,
      Line.ofChars_append (htab first), List.cons_append]
  · exact isDeclaration_iff.mpr ⟨keyword, hk, first, by simp⟩

section
variable {ν τ : Type} {value? : List Char → Option ν} {test? : List Char → Option τ}

/-- A block reads as the commands that its statements denote, whatever its declarations say. -/
theorem read?_block {name : String} {lines declarations : List Line}
    {commands : List (Command ν τ)} (hn : isName name.toList = true)
    (h : Denotes value? test? 1 lines [] commands)
    (hd : ∀ line ∈ declarations, isDeclaration line = true) :
    read? value? test? name (Block.text ⟨name, lines ++ declarations⟩) = some commands := by
  have hname := feed_not_mem_of_isName hn
  have hheader : Line.Plain ⟨0, "def " ++ name ++ "():"⟩ := ⟨by simp [hname], by simp⟩
  have hplain : ∀ line ∈ ⟨0, "def " ++ name ++ "():"⟩ :: lines, line.Plain :=
    List.forall_mem_cons.mpr ⟨hheader, fun line hl => (h.plain line hl).1⟩
  have htext : Block.text ⟨name, lines ++ declarations⟩ =
      Line.join (⟨0, "def " ++ name ++ "():"⟩ :: lines) ++ Line.join declarations := by
    simp [Block.text, Line.join, Line.text, String.append_assoc]
  have hstatements : (lines ++ Line.split (Line.join declarations)).takeWhile
      (fun line => !isDeclaration line) = lines := by
    have hlines : ∀ line ∈ lines, (!isDeclaration line) = true :=
      fun line hl => by simp [(h.plain line hl).2]
    rw [List.takeWhile_append_of_pos hlines]
    cases declarations with
    | nil => simp [Line.join, Line.split]
    | cons declaration rest =>
      obtain ⟨first, later, hsplit, hfirst⟩ :=
        split_declaration (hd declaration List.mem_cons_self) (Line.join rest)
      have hjoin : Line.join (declaration :: rest) = declaration.text ++ Line.join rest := by
        simp [Line.join]
      simp [hjoin, hsplit, hfirst]
  obtain ⟨forest, hforest, hread⟩ := h.nested
  have hread : forest? value? test? forest = some ⟨[], commands⟩ := by
    simpa [forest?] using hread [] [] rfl
  have houtlines : Outline.read? 1 lines = some forest :=
    hforest ▸ Outline.read?_forestLines 1 forest
  rw [read?, htext, Line.split_join hplain]
  simp [hstatements, houtlines, hread, Reading.whole?]

end

end Script

end FairProgram
