import FairProgram.Proofs.Classifier.Variables
import FairProgram.Proofs.Program.Rules

/-!
# The program of a classifier

Unrolling builds only names that can be read, expressions that group as precedence groups them and
branches that are not empty (`Classifier.unroll_legible`). So the text of a classifier's block reads
as its rule tree, with nested sequences flattened and literals as the numbers of their texts
(`Classifier.read_unrolled`).
-/

namespace FairProgram

-- ---------------------------------------------------------------------------
-- Names that unrolling makes up
-- ---------------------------------------------------------------------------

theorem Script.isName_append {first rest : List Char} (h : isName first = true)
    (hall : ∀ c ∈ rest, isNameChar c = true) : isName (first ++ rest) = true := by
  cases first with
  | nil => simp [isName] at h
  | cons c first =>
    have hchars := List.all_eq_true.mpr hall
    simp_all [isName]

theorem Scaler.isName_scaledName {feature : String} (h : Script.isName feature.toList = true) :
    Script.isName (scaledName feature).toList = true := by
  rw [scaledName, String.toList_append]
  exact Script.isName_append rfl (Script.isNameChar_of_isName h)

theorem Perceptron.isName_neuronName {target : String} (h : Script.isName target.toList = true)
    (isLast : Bool) (layer neuron : Nat) :
    Script.isName (neuronName target isLast layer neuron).toList = true := by
  cases isLast with
  | true => exact h
  | false =>
    have hlayer : Script.isName ("hidden_" ++ toString layer).toList = true := by
      rw [String.toList_append]
      exact Script.isName_append rfl fun c => Script.isNameChar_of_mem_natural
    have hunderscore : Script.isName ("hidden_" ++ toString layer ++ "_").toList = true := by
      rw [String.toList_append]
      exact Script.isName_append hlayer (by simp; rfl)
    rw [neuronName, if_neg Bool.false_ne_true, String.toList_append]
    exact Script.isName_append hunderscore fun c => Script.isNameChar_of_mem_natural

-- ---------------------------------------------------------------------------
-- Expressions that unrolling builds
-- ---------------------------------------------------------------------------

namespace Expr

theorem grouped_sum {terms : List Expr} (h : ∀ e ∈ terms, e.Grouped 2 1) :
    (sum terms).Grouped 0 0 := by
  have hsum : (sum terms).Grouped 0 1 := by
    refine sum_induction (motive := Grouped 0 1) (.int 0) (fun e he => ?_) fun hleft hright => ?_
    · exact (h e he).mono (Nat.zero_le _) (Nat.le_refl _)
    · exact .binary (Nat.zero_le _) (Nat.le_refl _) hleft (h _ hright)
  exact hsum.mono (Nat.le_refl _) (Nat.zero_le _)

theorem grouped_weightedSum {names : List String}
    (h : ∀ name ∈ names, Script.isName name.toList = true) (weights : List Float) :
    (weightedSum names weights).Grouped 0 0 := by
  apply grouped_sum
  intro e he
  obtain ⟨⟨name, weight⟩, hmem, rfl⟩ := List.mem_map.mp he
  exact .binary (by decide) (by decide) (.var (h name (List.of_mem_zip hmem).1)) (.real weight)

end Expr

-- ---------------------------------------------------------------------------
-- Rules of single stages
-- ---------------------------------------------------------------------------

variable {features inputs names : List String} {target name : String}

namespace Rule

theorem IsTree.commands_ne_nil {rule : Rule} (h : rule.IsTree features target) :
    rule.commands ≠ [] := by
  cases h <;> simp [commands]

theorem IsTree.legible {rule : Rule} (h : rule.IsTree features target)
    (ht : Script.isName target.toList = true)
    (hf : ∀ feature ∈ features, Script.isName feature.toList = true) : rule.Legible := by
  induction h with
  | leaf classIndex => exact ht
  | choice threshold hfeature hyes hno ihyes ihno =>
    exact ⟨⟨.var (hf _ hfeature), .real threshold⟩, ⟨ihyes, hyes.commands_ne_nil⟩, ihno,
      hno.commands_ne_nil⟩

theorem statementsLegible_append {first next : List Statement} (h : StatementsLegible first)
    (h' : StatementsLegible next) : StatementsLegible (first ++ next) := by
  induction first with
  | nil => exact h'
  | cons statement rest ih =>
    cases statement with
    | assign name value => exact ⟨h.1, ih h.2⟩
    | rule rule => exact ⟨h.1, ih h.2⟩

theorem statementsLegible_flatMap {α : Type} {items : List α} {statements : α → List Statement}
    (h : ∀ item ∈ items, StatementsLegible (statements item)) :
    StatementsLegible (items.flatMap statements) := by
  induction items with
  | nil => trivial
  | cons item rest ih =>
    obtain ⟨hitem, hrest⟩ := List.forall_mem_cons.mp h
    exact statementsLegible_append hitem (ih hrest)

theorem Legible.statements {rule : Rule} (h : rule.Legible) : StatementsLegible rule.statements := by
  cases rule with
  | sequence statements => exact h
  | leaf | choice | guarded => exact ⟨h, trivial⟩

end Rule

theorem Statement.legible_addConstant (hn : Script.isName name.toList = true) (constant : Float) :
    Rule.StatementsLegible [addConstant name constant] :=
  ⟨⟨hn, .binary (Nat.zero_le _) (Nat.zero_le _) (.var hn) (.real constant)⟩, trivial⟩

theorem Statement.legible_linear (hn : Script.isName name.toList = true)
    (hi : ∀ input ∈ inputs, Script.isName input.toList = true) (weights : List Float)
    (constant : Float) : Rule.StatementsLegible (linear name inputs weights constant) :=
  ⟨⟨hn, Expr.grouped_weightedSum hi weights⟩, legible_addConstant hn constant⟩

theorem Activation.legible_statements (hn : Script.isName name.toList = true)
    (activation : Activation) : Rule.StatementsLegible (activation.statements name) := by
  cases activation with
  | relu =>
    have hreset : Rule.Legible (.sequence [.assign name (.int 0)]) := ⟨⟨hn, .int 0⟩, trivial⟩
    exact ⟨⟨⟨.var hn, .int 0⟩, hreset, by simp [Rule.commands, Rule.statementCommands]⟩, trivial⟩
  | logistic =>
    have hpower : (Expr.binary .pow .euler (.neg (.var name))).Grouped 2 0 :=
      .binary (by decide) (by decide) .euler (.neg hn (by decide))
    have hsum : (Expr.binary .add (.int 1) (.binary .pow .euler (.neg (.var name)))).Grouped 0 0 :=
      .binary (by decide) (by decide) (.int 1) hpower
    exact ⟨⟨hn, .binary (by decide) (by decide) (.int 1) (.paren hsum)⟩, trivial⟩
  | identity | unsupported => trivial

namespace Perceptron

theorem legible_layer (hn : ∀ name ∈ names, Script.isName name.toList = true)
    (hi : ∀ input ∈ inputs, Script.isName input.toList = true) (neurons : List (List Float))
    (biases : List Float) (activation : Activation) :
    Rule.StatementsLegible (layer inputs names neurons biases activation) := by
  apply Rule.statementsLegible_flatMap
  rintro ⟨⟨name, weights⟩, bias⟩ hmem
  have hname := hn name (List.of_mem_zip (List.of_mem_zip hmem).1).1
  exact Rule.statementsLegible_append (Statement.legible_linear hname hi weights bias)
    (activation.legible_statements hname)

theorem legible_layers {network : Perceptron} {place : Nat}
    {layers : List (List (List Float) × List Float)} {statements : List Statement}
    (ht : Script.isName target.toList = true)
    (hi : ∀ input ∈ inputs, Script.isName input.toList = true)
    (h : layerStatements network target place inputs layers = .ok statements) :
    Rule.StatementsLegible statements := by
  induction layers generalizing place inputs statements with
  | nil =>
    cases h
    trivial
  | cons first rest ih =>
    obtain ⟨names, neurons, activation, later, rfl, hlater, -, -, hlast, hhidden⟩ :=
      layerStatements_cons_ok h
    have hnames : ∀ name ∈ names, Script.isName name.toList = true := by
      cases rest with
      | nil => simp [hlast rfl, ht]
      | cons next rest =>
        rw [hhidden (List.cons_ne_nil _ _)]
        exact List.forall_mem_map.mpr fun neuron _ => isName_neuronName ht false place neuron
    exact Rule.statementsLegible_append (legible_layer hnames hi neurons _ activation)
      (ih hnames hlater)

theorem legible {network : Perceptron} {offset : Option Float} {rule : Rule}
    (ht : Script.isName target.toList = true)
    (hf : ∀ feature ∈ features, Script.isName feature.toList = true)
    (h : network.unroll features target offset = .ok rule) : rule.Legible := by
  obtain ⟨layers, statements, -, -, hlayers, rfl⟩ := unroll_ok h
  apply Rule.statementsLegible_append (legible_layers ht hf hlayers)
  cases offset with
  | none => trivial
  | some value => exact Statement.legible_addConstant ht value

end Perceptron

namespace Scaler

theorem legible_statement {feature : String} (h : Script.isName feature.toList = true)
    (mean scale : Float) : Rule.StatementsLegible [statement feature mean scale] := by
  have hcentred : (Expr.binary .sub (.var feature) (.real mean)).Grouped 0 0 :=
    .binary (by decide) (by decide) (.var h) (.real mean)
  exact ⟨⟨isName_scaledName h, .binary (by decide) (by decide) (.paren hcentred) (.real _)⟩, trivial⟩

theorem legible {scaler : Scaler} {e : Unrolled}
    (hf : ∀ feature ∈ features, Script.isName feature.toList = true)
    (h : scaler.unroll features = .ok e) :
    e.rules.Legible ∧ ∀ feature ∈ e.features, Script.isName feature.toList = true := by
  obtain ⟨means, scales, -, -, rfl⟩ := unroll_ok h
  constructor
  · show Rule.StatementsLegible (statements features means scales)
    rw [statements, List.map_eq_flatMap]
    apply Rule.statementsLegible_flatMap
    rintro ⟨⟨feature, mean⟩, scale⟩ hmem
    exact legible_statement (hf feature (List.of_mem_zip (List.of_mem_zip hmem).1).1) mean scale
  · exact List.forall_mem_map.mpr fun feature hmem => isName_scaledName (hf feature hmem)

end Scaler

-- ---------------------------------------------------------------------------
-- Blocks
-- ---------------------------------------------------------------------------

theorem Line.opened_of_forall {lines : List Line}
    (h : ∀ line ∈ lines, line.content.toList.getLast? ≠ some ':') : Opened lines := by
  induction lines with
  | nil => trivial
  | cons line rest ih =>
    obtain ⟨hline, hrest⟩ := List.forall_mem_cons.mp h
    exact ⟨fun hcolon => absurd hcolon hline, ih hrest⟩

theorem Predicate.getLast?_declaration (places : Nat) (keyword : String) (p : Predicate) :
    (p.declaration places keyword).content.toList.getLast? = some ')' := by
  simp [declaration, List.getLast?_cons, List.getLast?_append]

namespace Block

variable {p : Params} {rules : Rule} {fairness : List Predicate}

theorem classifier?_eq_none_iff : classifier? p rules fairness = none ↔
    (rules.hasReals = true ∨ fairness ≠ []) ∧ Decimal.maxPlaces < p.literalPlaces := by
  simp [classifier?]

theorem classifier?_ok {block : Block} (h : classifier? p rules fairness = some block) :
    block = classifier p rules fairness := by
  unfold classifier? at h
  dsimp only at h
  split at h
  · cases h
  · exact (Option.some.inj h).symm

end Block

-- ---------------------------------------------------------------------------
-- Classifiers
-- ---------------------------------------------------------------------------

namespace Classifier

variable {p : Params} {e : Unrolled}

theorem unroll_legible (c : Classifier) (ht : Script.isName target.toList = true)
    (hf : ∀ feature ∈ features, Script.isName feature.toList = true)
    (h : c.unroll p target features = .ok e) : e.rules.Legible := by
  suffices hall : (∀ feature ∈ features, Script.isName feature.toList = true) →
      e.rules.Legible ∧ ∀ feature ∈ e.features, Script.isName feature.toList = true from
    (hall hf).1
  refine unroll_induction (motive := fun features e =>
      (∀ feature ∈ features, Script.isName feature.toList = true) →
        e.rules.Legible ∧ ∀ feature ∈ e.features, Script.isName feature.toList = true)
    (fun h hf => ⟨h.legible ht hf, hf⟩) (fun h hf => ⟨?_, hf⟩)
    (fun h hf => ⟨Perceptron.legible ht hf h, hf⟩) (fun h hf => Scaler.legible hf h)
    (fun h h' hf => ?_) c h
  · obtain rfl := LinearModel.unroll_ok h
    exact Statement.legible_linear ht hf _ _
  · obtain ⟨hfirst, hbetween⟩ := h hf
    obtain ⟨hnext, hvisible⟩ := h' hbetween
    exact ⟨Rule.statementsLegible_append hfirst.statements hnext.statements, hvisible⟩

/-- The text of a classifier's block reads as its rules. It is missing only if its literals would
have too many places, and each of its lines that ends in a colon is followed by a deeper one. -/
theorem read_unrolled (c : Classifier) (ht : Script.isName target.toList = true)
    (hf : ∀ feature ∈ features, Script.isName feature.toList = true)
    (h : c.unroll p target features = .ok e) (hr : ∀ x ∈ e.rules.reals, x.isFinite = true)
    (fairness : List Predicate) :
    (Block.classifier? p e.rules fairness = none ↔
      (e.rules.hasReals = true ∨ fairness ≠ []) ∧ Decimal.maxPlaces < p.literalPlaces) ∧
    ∀ block, Block.classifier? p e.rules fairness = some block →
      Script.read? Script.term? Script.comparing? "F" block.text =
        some (Rule.read p.literalPlaces e.rules.commands) ∧
      Line.Opened block.body := by
  refine ⟨Block.classifier?_eq_none_iff, fun block hblock => ?_⟩
  obtain rfl := Block.classifier?_ok hblock
  have hlines : Script.Denotes Script.term? Script.comparing? 1 (e.rules.lines p.literalPlaces 1) []
      (Rule.read p.literalPlaces e.rules.commands) :=
    Rule.denotes_lines 1 e.rules (c.unroll_legible ht hf h) hr
  constructor
  · refine Script.read?_block rfl hlines (List.forall_mem_map.mpr fun predicate _ => ?_)
    exact Script.isDeclaration_declaration (by simp [Script.keywords]) _ predicate
  · refine hlines.opened.append (Line.opened_of_forall (List.forall_mem_map.mpr fun predicate _ => ?_))
    simp [Predicate.getLast?_declaration]

theorem read_unrolled_scaledNetwork :
    ∃ e, scaledNetwork.unroll {} "label" ["x"] = .ok e ∧
      (∀ x ∈ e.rules.reals, x.isFinite = true) ∧
      ∃ block, Block.classifier? {} e.rules [⟨"label", .greater, 0.5⟩] = some block ∧
        Script.read? Script.term? Script.comparing? "F" block.text =
          some (Rule.read 4 e.rules.commands) ∧
        Line.Opened block.body := by
  obtain ⟨e, h, -⟩ := exists_unroll_scaledNetwork
  have hr : ∀ x ∈ e.rules.reals, x.isFinite = true := by
    cases h
    decide +kernel
  obtain ⟨hnone, hread⟩ := read_unrolled scaledNetwork rfl (by simp; rfl) h hr
    [⟨"label", .greater, 0.5⟩]
  cases hblock : Block.classifier? {} e.rules [⟨"label", .greater, 0.5⟩] with
  | none => exact absurd (hnone.mp hblock).2 (by decide)
  | some block => exact ⟨e, h, hr, block, hblock, hread block hblock⟩

end Classifier

end FairProgram
