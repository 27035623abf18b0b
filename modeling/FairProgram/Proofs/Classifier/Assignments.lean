import Mathlib.Logic.Function.Iterate
import FairProgram.Proofs.Classifier.Stages
import FairProgram.Proofs.Rule.Paths

/-!
# Variables that unrolled classifiers assign

Every path through the rules of a classifier assigns the same variables: each scaled feature, each
hidden neuron, and the target where a stage decides it (`Classifier.unroll_assigns`). Scaled features
and neurons have made-up names, which may be names of features. Where none is, the features keep
their values, and only there (`Classifier.unroll_keeps_features`).
-/

namespace FairProgram

/-- Each of these paths, begun with the `known` variables assigned, ends with exactly these
assigned. -/
def Assigns (known : List String) (paths : List (List Access)) (assigned : List String) : Prop :=
  ∀ path ∈ paths, ∀ name, (name ∈ known ∨ .write name ∈ path) ↔ name ∈ assigned

section
variable {known between assigned : List String} {paths later : List (List Access)}

theorem Assigns.append (hp : Assigns known paths between) (hl : Assigns between later assigned) :
    Assigns known (paths.flatMap fun path => later.map (path ++ ·)) assigned := by
  intro whole hw name
  obtain ⟨path, hpath, hw⟩ := List.mem_flatMap.mp hw
  obtain ⟨rest, hrest, rfl⟩ := List.mem_map.mp hw
  rw [← hl rest hrest name, ← hp path hpath name, List.mem_append, or_assoc]

theorem Assigns.either (hp : Assigns known paths assigned) (hl : Assigns known later assigned) :
    Assigns known (paths ++ later) assigned := by
  intro path hpath
  rcases List.mem_append.mp hpath with hpath | hpath
  · exact hp path hpath
  · exact hl path hpath

theorem Assigns.congr {others : List String} (h : Assigns known paths assigned)
    (heq : ∀ name, name ∈ assigned ↔ name ∈ others) : Assigns known paths others :=
  fun path hp name => (h path hp name).trans (heq name)

theorem assigns_reads (names : List String) : Assigns known [names.map .read] known := by
  intro path hp name
  obtain rfl := List.mem_singleton.mp hp
  simp

theorem assigns_write (name : String) : Assigns known [[.write name]] (name :: known) := by
  intro path hp other
  obtain rfl := List.mem_singleton.mp hp
  simp [or_comm]

end

namespace Rule

section
variable {known between assigned : List String}

theorem assigns_choice (condition : Condition) {yes no : Rule}
    (hyes : Assigns known yes.paths assigned) (hno : Assigns known no.paths assigned) :
    Assigns known (choice condition yes no).paths assigned := by
  simpa [paths] using (assigns_reads condition.reads).append (hyes.either hno)

theorem assigns_guarded (condition : Condition) {yes : Rule}
    (hyes : Assigns known yes.paths known) : Assigns known (guarded condition yes).paths known := by
  have hskip : Assigns known [[]] known := assigns_reads []
  simpa [paths] using (assigns_reads condition.reads).append (hyes.either hskip)

theorem assigns_nil : Assigns known (statementPaths []) known := by
  simpa [statementPaths] using assigns_reads []

theorem assigns_append {first second : List Statement}
    (h : Assigns known (statementPaths first) between)
    (h' : Assigns between (statementPaths second) assigned) :
    Assigns known (statementPaths (first ++ second)) assigned := by
  rw [statementPaths_append]
  exact h.append h'

theorem assigns_assign (name : String) (value : Expr) :
    Assigns known (statementPaths [.assign name value]) (name :: known) := by
  simpa [statementPaths] using (assigns_reads value.reads).append (assigns_write name)

/-- Assigning a known variable adds none. -/
theorem assigns_assign_known {name : String} (hn : name ∈ known) (value : Expr) :
    Assigns known (statementPaths [.assign name value]) known :=
  (assigns_assign name value).congr fun other => by
    simpa using fun h : other = name => h ▸ hn

theorem assigns_rule {rule : Rule} (h : Assigns known rule.paths assigned) :
    Assigns known (statementPaths [.rule rule]) assigned := by
  simpa [statementPaths] using h

end

mutual
/-- The variables that the statements of a rule assign. -/
def assigned : Rule → List String
  | .leaf target _ => [target]
  | .choice _ yes no => yes.assigned ++ no.assigned
  | .guarded _ yes => yes.assigned
  | .sequence statements => statementsAssigned statements
def statementsAssigned : List Statement → List String
  | [] => []
  | .assign name _ :: rest => name :: statementsAssigned rest
  | .rule rule :: rest => rule.assigned ++ statementsAssigned rest
end

/-- Each path of the first rules is continued by some path of the later ones. -/
theorem exists_write_flatMap {paths later : List (List Access)} (hp : paths ≠ []) (hl : later ≠ [])
    (name : String) :
    (∃ whole ∈ paths.flatMap fun path => later.map (path ++ ·), Access.write name ∈ whole) ↔
      (∃ path ∈ paths, .write name ∈ path) ∨ ∃ path ∈ later, .write name ∈ path := by
  obtain ⟨first, hfirst⟩ := List.exists_mem_of_ne_nil _ hp
  obtain ⟨last, hlast⟩ := List.exists_mem_of_ne_nil _ hl
  simp only [List.mem_flatMap, List.mem_map]
  constructor
  · rintro ⟨_, ⟨path, hpath, rest, hrest, rfl⟩, hwrite⟩
    rcases List.mem_append.mp hwrite with hwrite | hwrite
    · exact .inl ⟨path, hpath, hwrite⟩
    · exact .inr ⟨rest, hrest, hwrite⟩
  · rintro (⟨path, hpath, hwrite⟩ | ⟨rest, hrest, hwrite⟩)
    · exact ⟨_, ⟨path, hpath, last, hlast, rfl⟩, List.mem_append_left _ hwrite⟩
    · exact ⟨_, ⟨first, hfirst, rest, hrest, rfl⟩, List.mem_append_right _ hwrite⟩

mutual
theorem mem_assigned {name : String} : (rule : Rule) →
    (name ∈ rule.assigned ↔ ∃ path ∈ rule.paths, .write name ∈ path)
  | .leaf target _ => by simp [assigned, paths]
  | .choice condition yes no => by
    simp [assigned, paths, mem_assigned yes, mem_assigned no, or_and_right, exists_or]
  | .guarded condition yes => by
    simp [assigned, paths, mem_assigned yes, or_and_right, exists_or]
  | .sequence statements => mem_statementsAssigned statements
theorem mem_statementsAssigned {name : String} : (statements : List Statement) →
    (name ∈ statementsAssigned statements ↔ ∃ path ∈ statementPaths statements, .write name ∈ path)
  | [] => by simp [statementsAssigned, statementPaths]
  | .assign other value :: rest => by
    have hrest := exists_write_flatMap (List.cons_ne_nil [Access.write other] [])
      (statementPaths_ne_nil rest) name
    simpa [statementsAssigned, statementPaths, mem_statementsAssigned rest] using hrest.symm
  | .rule rule :: rest => by
    rw [statementsAssigned, List.mem_append, mem_assigned rule, mem_statementsAssigned rest,
      statementPaths, exists_write_flatMap rule.paths_ne_nil (statementPaths_ne_nil rest)]
end

end Rule

-- ---------------------------------------------------------------------------
-- Single stages
-- ---------------------------------------------------------------------------

variable {features inputs : List String} {target name : String} {known : List String}

theorem Rule.IsTree.assigns {rule : Rule} (h : rule.IsTree features target) :
    Assigns known rule.paths (target :: known) := by
  induction h with
  | leaf classIndex => exact assigns_write target
  | choice threshold _ _ _ ihyes ihno => exact assigns_choice _ ihyes ihno

theorem Statement.assigns_addConstant (hn : name ∈ known) (constant : Float) :
    Assigns known (Rule.statementPaths [addConstant name constant]) known :=
  Rule.assigns_assign_known hn _

theorem Statement.assigns_linear (name : String) (inputs : List String) (weights : List Float)
    (constant : Float) :
    Assigns known (Rule.statementPaths (linear name inputs weights constant))
      (name :: known) :=
  Rule.assigns_append (Rule.assigns_assign name _)
    (assigns_addConstant (List.mem_cons_self) constant)

theorem Activation.assigns_statements (hn : name ∈ known) (activation : Activation) :
    Assigns known (Rule.statementPaths (activation.statements name)) known := by
  cases activation with
  | relu =>
    apply Rule.assigns_rule
    apply Rule.assigns_guarded
    exact Rule.assigns_assign_known hn (.int 0)
  | logistic => exact Rule.assigns_assign_known hn _
  | identity | unsupported => exact Rule.assigns_nil

namespace Perceptron

theorem assigns_neuron (name : String) (inputs : List String) (weights : List Float) (bias : Float)
    (activation : Activation) :
    Assigns known (Rule.statementPaths (neuronStatements name inputs weights bias activation))
      (name :: known) :=
  Rule.assigns_append (Statement.assigns_linear name inputs weights bias)
    (activation.assigns_statements (List.mem_cons_self))

theorem assigns_layer {names : List String} {neurons : List (List Float)} {biases : List Float}
    (inputs : List String) (activation : Activation) (hn : names.length = neurons.length)
    (hb : biases.length = neurons.length) :
    Assigns known (Rule.statementPaths (layer inputs names neurons biases activation))
      (names ++ known) := by
  induction names generalizing neurons biases known with
  | nil =>
    exact Rule.assigns_nil
  | cons name names ih =>
    cases neurons with
    | nil => cases hn
    | cons weights neurons =>
      cases biases with
      | nil => cases hb
      | cons bias biases =>
        have hfirst : Assigns known _ (name :: known) :=
          assigns_neuron name inputs weights bias activation
        have hall := Rule.assigns_append hfirst (ih (Nat.succ.inj hn) (Nat.succ.inj hb))
        refine hall.congr fun other => ?_
        simp [or_left_comm]

/-- The variable of a neuron of a layer that is not the last. -/
def hiddenName (layer neuron : Nat) : String :=
  "hidden_" ++ toString layer ++ "_" ++ toString neuron

/-- The hidden neurons of the layers from one on: those of all but the last. -/
def hiddenNames (place : Nat) : List (List (List Float)) → List String
  | [] | [_] => []
  | weights :: next :: rest =>
    (List.range (width weights)).map (hiddenName place) ++ hiddenNames (place + 1) (next :: rest)

theorem assigns_layers {network : Perceptron} {place : Nat}
    {layers : List (List (List Float) × List Float)} {statements : List Statement} (hne : layers ≠ [])
    (h : layerStatements network target place inputs layers = .ok statements) :
    Assigns known (Rule.statementPaths statements)
      (target :: hiddenNames place (layers.map (·.1)) ++ known) := by
  induction layers generalizing place inputs known statements with
  | nil => exact absurd rfl hne
  | cons first rest ih =>
    obtain ⟨names, neurons, activation, later, rfl, hlater, hn, hb, hlast, hhidden⟩ :=
      layerStatements_cons_ok h
    have hlayer : Assigns known _ (names ++ known) :=
      assigns_layer inputs activation hn hb
    cases rest with
    | nil =>
      cases hlater
      rw [List.append_nil]
      refine hlayer.congr fun other => ?_
      simp [hlast rfl, hiddenNames]
    | cons next rest =>
      refine (Rule.assigns_append hlayer (ih (List.cons_ne_nil _ _) hlater)).congr fun other => ?_
      rw [hhidden (List.cons_ne_nil _ _)]
      have hnames : (List.range (width first.1)).map (neuronName target false place) =
          (List.range (width first.1)).map (hiddenName place) := rfl
      simp [hnames, hiddenNames, or_left_comm]

theorem assigns {network : Perceptron} {offset : Option Float} {rule : Rule}
    (h : network.unroll features target offset = .ok rule) :
    Assigns known rule.paths
      (target :: hiddenNames 0 network.weights ++ known) := by
  obtain ⟨layers, statements, hne, hweights, hlayers, rfl⟩ := unroll_ok h
  have hstatements : Assigns known _ _ := assigns_layers hne hlayers
  rw [hweights] at hstatements
  refine Rule.assigns_append hstatements ?_
  cases offset with
  | none => exact Rule.assigns_nil
  | some value => exact Statement.assigns_addConstant (List.mem_cons_self) value

end Perceptron

theorem Scaler.assigns {scaler : Scaler} {e : Unrolled} (h : scaler.unroll features = .ok e) :
    Assigns known e.rules.paths (features.map scaledName ++ known) := by
  obtain ⟨means, scales, hm, hs, rfl⟩ := unroll_ok h
  show Assigns known (Rule.statementPaths (statements features means scales)) _
  clear h
  induction features generalizing means scales known with
  | nil =>
    exact Rule.assigns_nil
  | cons feature features ih =>
    cases means with
    | nil => cases hm
    | cons mean means =>
      cases scales with
      | nil => cases hs
      | cons scale scales =>
        have hfirst : Assigns known (Rule.statementPaths [statement feature mean scale])
            (scaledName feature :: known) :=
          Rule.assigns_assign _ _
        have hall := Rule.assigns_append hfirst (ih means scales (Nat.succ.inj hm) (Nat.succ.inj hs))
        refine hall.congr fun other => ?_
        simp [or_left_comm]

-- ---------------------------------------------------------------------------
-- Classifiers
-- ---------------------------------------------------------------------------

namespace Classifier

def isScaler : Classifier → Bool
  | .scaler _ => true
  | .tree _ | .linear _ | .perceptron _ | .pipeline _ | .unsupported _ => false

/-- Whether a single stage assigns the target. -/
def decides : Classifier → Bool
  | .tree _ | .linear _ | .perceptron _ => true
  | .scaler _ | .pipeline _ | .unsupported _ => false

/-- The hidden neurons of a single stage. -/
def neurons : Classifier → List String
  | .perceptron network => Perceptron.hiddenNames 0 network.weights
  | .tree _ | .linear _ | .scaler _ | .pipeline _ | .unsupported _ => []

/-- The variables that a single stage assigns. -/
def stageAssigned (target : String) (features : List String) : Classifier → List String
  | .tree _ | .linear _ => [target]
  | .perceptron network => target :: Perceptron.hiddenNames 0 network.weights
  | .scaler _ => features.map Scaler.scaledName
  | .pipeline _ | .unsupported _ => []

/-- The features behind a single stage. -/
def passed (features : List String) : Classifier → List String
  | .scaler _ => features.map Scaler.scaledName
  | .tree _ | .linear _ | .perceptron _ | .pipeline _ | .unsupported _ => features

/-- The variables that stages assign one after the other. -/
def stagesAssigned (target : String) (features : List String) : List Classifier → List String
  | [] => []
  | stage :: rest =>
    stage.stageAssigned target features ++ stagesAssigned target (stage.passed features) rest

variable {p : Params} {visible : List String} {e : Unrolled}

theorem assigns_stage {stage : Classifier} (hs : ∀ steps, stage ≠ .pipeline steps)
    (h : stage.unroll p target features = .ok e) :
    Assigns known e.rules.paths (stage.stageAssigned target features ++ known) ∧
      e.features = stage.passed features := by
  cases stage with
  | tree t =>
    obtain ⟨rule, hrule, h⟩ := bind_ok h
    cases h
    exact ⟨(DecisionTree.unroll_ok hrule).assigns, rfl⟩
  | linear model =>
    obtain ⟨rule, hrule, h⟩ := bind_ok h
    cases h
    obtain rfl := LinearModel.unroll_ok hrule
    exact ⟨Statement.assigns_linear target features _ _, rfl⟩
  | perceptron network =>
    obtain ⟨rule, hrule, h⟩ := bind_ok h
    cases h
    exact ⟨Perceptron.assigns hrule, rfl⟩
  | scaler s =>
    refine ⟨Scaler.assigns h, ?_⟩
    obtain ⟨means, scales, -, -, rfl⟩ := Scaler.unroll_ok h
    rfl
  | pipeline steps => exact absurd rfl (hs steps)
  | unsupported kind => cases h

theorem Staged.assigns {stages : List Classifier} {parts : List Unrolled}
    (h : Staged p target features stages parts visible)
    (hs : ∀ stage ∈ stages, ∀ steps, stage ≠ .pipeline steps) :
    Assigns known (Rule.statementPaths (parts.flatMap (·.rules.statements)))
      (stagesAssigned target features stages ++ known) := by
  induction h generalizing known with
  | nil => exact Rule.assigns_nil
  | @cons features visible stage part rest parts hpart _ ih =>
    obtain ⟨hstage, hrest⟩ := List.forall_mem_cons.mp hs
    obtain ⟨hfirst, hpassed⟩ := assigns_stage hstage hpart
    rw [← Rule.statementPaths_statements] at hfirst
    have hall := Rule.assigns_append hfirst (ih hrest)
    refine hall.congr fun name => ?_
    simp [stagesAssigned, hpassed, or_left_comm]

theorem mem_stageAssigned {stage : Classifier} : name ∈ stage.stageAssigned target features ↔
    (stage.isScaler = true ∧ name ∈ features.map Scaler.scaledName) ∨
      name ∈ stage.neurons ∨ name = target ∧ stage.decides = true := by
  cases stage <;> simp [stageAssigned, isScaler, neurons, decides, or_comm]

theorem decides_of_mem_neurons {stage : Classifier} (h : name ∈ stage.neurons) :
    stage.decides = true := by
  cases stage with
  | perceptron network => rfl
  | tree | linear | scaler | pipeline | unsupported => cases h

theorem passed_eq (stage : Classifier) : stage.passed features =
    if stage.isScaler then features.map Scaler.scaledName else features := by
  cases stage <;> rfl

/-- One scaler more, in front of others. -/
theorem exists_scaled_succ {scalers : Nat} :
    (∃ feature ∈ features, ∃ times < scalers + 1, name = Scaler.scaledName^[times + 1] feature) ↔
      name ∈ features.map Scaler.scaledName ∨
        ∃ feature ∈ features.map Scaler.scaledName, ∃ times < scalers,
          name = Scaler.scaledName^[times + 1] feature := by
  simp only [Nat.exists_lt_succ_left, and_or_left, exists_or, List.mem_map, exists_exists_and_eq_and,
    Function.iterate_succ_apply, Function.iterate_zero_apply, @eq_comm String name]

theorem mem_stagesAssigned {stages : List Classifier} : name ∈ stagesAssigned target features stages ↔
    (∃ feature ∈ features, ∃ times < stages.countP isScaler,
      name = Scaler.scaledName^[times + 1] feature) ∨
    (∃ stage ∈ stages, name ∈ stage.neurons) ∨
    name = target ∧ ∃ stage ∈ stages, stage.decides = true := by
  induction stages generalizing features with
  | nil => simp [stagesAssigned]
  | cons stage rest ih =>
    rw [stagesAssigned, List.mem_append, mem_stageAssigned, ih, passed_eq, List.countP_cons]
    simp only [List.mem_cons, or_and_right, exists_or, exists_eq_left, and_or_left]
    cases hs : stage.isScaler with
    | true =>
      simp only [if_true, exists_scaled_succ, true_and]
      exact iff_of_eq (by ac_rfl)
    | false =>
      simp only [Bool.false_eq_true, if_false, false_and, false_or]
      exact iff_of_eq (by ac_rfl)

/-- All paths assign the same variables. -/
theorem unroll_assigns (c : Classifier) (h : c.unroll p target features = .ok e) :
    Assigns [] e.rules.paths (stagesAssigned target features c.stages) := by
  obtain ⟨parts, hparts, hstatements⟩ := unroll_ok (filled_of_unroll_ok c h) h
  have hassigns : Assigns [] _ _ := hparts.assigns (not_pipeline_of_mem_stages c)
  rwa [← hstatements, Rule.statementPaths_statements, List.append_nil] at hassigns

theorem write_mem_path_iff (c : Classifier) (h : c.unroll p target features = .ok e)
    {path : List Access} (hp : path ∈ e.rules.paths) :
    .write name ∈ path ↔ name ∈ stagesAssigned target features c.stages := by
  simpa using c.unroll_assigns h path hp name

theorem mem_assigned_unroll (c : Classifier) (h : c.unroll p target features = .ok e) :
    name ∈ e.rules.assigned ↔ name ∈ stagesAssigned target features c.stages := by
  obtain ⟨path, hp⟩ := List.exists_mem_of_ne_nil _ e.rules.paths_ne_nil
  rw [Rule.mem_assigned]
  exact ⟨fun ⟨path, hp, hwrite⟩ => (c.write_mem_path_iff h hp).mp hwrite,
    fun hname => ⟨path, hp, (c.write_mem_path_iff h hp).mpr hname⟩⟩

/-- The rules of a classifier assign no feature exactly where no scaled feature and no hidden neuron
has the name of one. Then every read of a feature sees the value that it had at first. -/
theorem unroll_keeps_features (c : Classifier) (ht : target ∉ features)
    (h : c.unroll p target features = .ok e) :
    ((∀ name ∈ e.rules.assigned, name ∉ features) ↔
      (∀ feature ∈ features, ∀ times < c.stages.countP isScaler,
        Scaler.scaledName^[times + 1] feature ∉ features) ∧
      ∀ stage ∈ c.stages, ∀ name ∈ stage.neurons, name ∉ features) ∧
    ((∀ name ∈ e.rules.assigned, name ∉ features) →
      ∀ path ∈ e.rules.paths, ∀ before name after, path = before ++ .read name :: after →
        name ∈ features → .write name ∉ before) := by
  constructor
  · simp only [c.mem_assigned_unroll h, mem_stagesAssigned]
    constructor
    · intro hkept
      exact ⟨fun feature hf times hlt => hkept _ (.inl ⟨feature, hf, times, hlt, rfl⟩),
        fun stage hs name hn => hkept name (.inr (.inl ⟨stage, hs, hn⟩))⟩
    · rintro ⟨hscaled, hneurons⟩ name (⟨feature, hf, times, hlt, rfl⟩ | ⟨stage, hs, hn⟩ | ⟨rfl, -⟩)
      · exact hscaled feature hf times hlt
      · exact hneurons stage hs name hn
      · exact ht
  · rintro hkept path hp before name after rfl hname hwrite
    have hassigned : name ∈ e.rules.assigned :=
      (Rule.mem_assigned _).mpr ⟨_, hp, List.mem_append_left _ hwrite⟩
    exact hkept name hassigned hname

/-- A scaler of two features, in front of a linear model. -/
def scaledSum : Classifier :=
  .pipeline [.scaler ⟨some [3, 10], some [2, 4]⟩, .linear ⟨[1, 1], 0⟩]

theorem unroll_keeps_features_scaledSum :
    "label" ∉ ["x", "z"] ∧ ∃ e, scaledSum.unroll {} "label" ["x", "z"] = .ok e ∧
      ∀ path ∈ e.rules.paths, ∀ before name after, path = before ++ .read name :: after →
        name ∈ ["x", "z"] → .write name ∉ before := by
  obtain ⟨e, h⟩ : ∃ e, scaledSum.unroll {} "label" ["x", "z"] = .ok e := ⟨_, rfl⟩
  obtain ⟨hiff, hkept⟩ := unroll_keeps_features scaledSum (by decide) h
  refine ⟨by decide, e, h, hkept (hiff.mpr ⟨?_, ?_⟩)⟩
  · decide
  · simp [scaledSum, stages, allStages, neurons]

/-- The scaled `x` takes the place of the feature `scaled_x`, which is read behind it. -/
theorem exists_overwritten_feature :
    ["x", "scaled_x"].Nodup ∧ "label" ∉ ["x", "scaled_x"] ∧
      ∃ e, scaledSum.unroll {} "label" ["x", "scaled_x"] = .ok e ∧ "scaled_x" ∈ e.rules.assigned ∧
        ∀ path ∈ e.rules.paths, ∃ before after,
          path = before ++ .read "scaled_x" :: after ∧ .write "scaled_x" ∈ before := by
  refine ⟨by decide, by decide, _, rfl, by decide, fun path hp => ?_⟩
  obtain rfl := List.mem_singleton.mp hp
  exact ⟨[.read "x", .write "scaled_x"], _, rfl, List.mem_cons_of_mem _ List.mem_cons_self⟩

end Classifier

end FairProgram
