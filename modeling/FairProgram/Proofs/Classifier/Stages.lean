import FairProgram.Program.Block
import FairProgram.Proofs.Classifier.Unrolling

/-!
# Stages of nested pipelines

A pipeline may stand inside another. Unrolling one stage after the other is associative, so a
classifier unrolls as the one pipeline of its stages from left to right, with the lines of each stage
one after the other, and fails as the first of them does (`Classifier.unroll_flat`).
-/

namespace FairProgram

namespace Rule

@[simp] theorem statements_andThen (first second : Rule) :
    (first.andThen second).statements = first.statements ++ second.statements :=
  rfl

theorem andThen_assoc (first second third : Rule) :
    (first.andThen second).andThen third = first.andThen (second.andThen third) := by
  simp [andThen, statements]

section
variable {places indent : Nat}

theorem statementLines_append (first second : List Statement) :
    statementLines places indent (first ++ second) =
      statementLines places indent first ++ statementLines places indent second := by
  induction first with
  | nil => rfl
  | cons statement rest ih =>
    cases statement with
    | assign name value => simp [statementLines, ih]
    | rule rule => simp [statementLines, ih]

theorem statementLines_statements (rule : Rule) :
    statementLines places indent rule.statements = rule.lines places indent := by
  cases rule <;> simp [statements, statementLines, lines]

/-- The lines of rules that hold the statements of others, one after the other. -/
theorem lines_of_statements {rule : Rule} {parts : List Unrolled}
    (h : rule.statements = parts.flatMap (·.rules.statements)) :
    rule.lines places indent = parts.flatMap (·.rules.lines places indent) := by
  rw [← statementLines_statements, h]
  clear h
  induction parts with
  | nil => rfl
  | cons part rest ih =>
    rw [List.flatMap_cons, statementLines_append, statementLines_statements, ih, List.flatMap_cons]

end

end Rule

-- ---------------------------------------------------------------------------
-- Stages
-- ---------------------------------------------------------------------------

namespace Classifier

mutual
/-- The classifiers that are no pipelines, from left to right. -/
def stages : Classifier → List Classifier
  | .pipeline steps => allStages steps
  | .tree t => [.tree t]
  | .linear model => [.linear model]
  | .perceptron network => [.perceptron network]
  | .scaler s => [.scaler s]
  | .unsupported kind => [.unsupported kind]
def allStages : List Classifier → List Classifier
  | [] => []
  | step :: rest => step.stages ++ allStages rest
end

mutual
/-- No pipeline is empty, at any depth. -/
def Filled : Classifier → Prop
  | .pipeline steps => steps ≠ [] ∧ AllFilled steps
  | .tree _ | .linear _ | .perceptron _ | .scaler _ | .unsupported _ => True
def AllFilled : List Classifier → Prop
  | [] => True
  | step :: rest => step.Filled ∧ AllFilled rest
end

/-- Stages unrolled one after the other, each with the features that the one before leaves: what each
of them returns, and the features behind the last. -/
inductive Staged (p : Params) (target : String) :
    List String → List Classifier → List Unrolled → List String → Prop
  | nil {features : List String} : Staged p target features [] [] features
  | cons {features visible : List String} {stage : Classifier} {part : Unrolled}
      {rest : List Classifier} {parts : List Unrolled} :
      stage.unroll p target features = .ok part → Staged p target part.features rest parts visible →
      Staged p target features (stage :: rest) (part :: parts) visible

variable {p : Params} {target : String} {features visible : List String}

mutual
theorem not_pipeline_of_mem_stages : (c : Classifier) → ∀ stage ∈ c.stages, ∀ steps,
    stage ≠ .pipeline steps
  | .pipeline steps => not_pipeline_of_mem_allStages steps
  | .tree _ | .linear _ | .perceptron _ | .scaler _ | .unsupported _ => by simp [stages]
theorem not_pipeline_of_mem_allStages : (list : List Classifier) → ∀ stage ∈ allStages list,
    ∀ steps, stage ≠ .pipeline steps
  | [] => by simp [allStages]
  | step :: rest => by
    intro stage hs
    rcases List.mem_append.mp hs with hs | hs
    · exact not_pipeline_of_mem_stages step stage hs
    · exact not_pipeline_of_mem_allStages rest stage hs
end

theorem Filled.stages_ne_nil : {c : Classifier} → c.Filled → c.stages ≠ []
  | .pipeline (first :: _), ⟨_, hfirst, _⟩ => by
    simp [stages, allStages, hfirst.stages_ne_nil]
  | .tree _, _ | .linear _, _ | .perceptron _, _ | .scaler _, _ | .unsupported _, _ => by
    simp [stages]

mutual
theorem filled_of_unroll_ok {features : List String} {e : Unrolled} : (c : Classifier) →
    c.unroll p target features = .ok e → c.Filled
  | .pipeline (first :: rest), h => by
    obtain ⟨start, hstart, h⟩ := bind_ok h
    exact ⟨List.cons_ne_nil _ _, filled_of_unroll_ok first hstart, filled_of_unrollSteps_ok rest h⟩
  | .tree _, _ | .linear _, _ | .perceptron _, _ | .scaler _, _ | .unsupported _, _ => trivial
theorem filled_of_unrollSteps_ok {done e : Unrolled} : (steps : List Classifier) →
    unrollSteps p target done steps = .ok e → AllFilled steps
  | [], _ => trivial
  | step :: rest, h => by
    obtain ⟨next, hnext, h⟩ := bind_ok h
    exact ⟨filled_of_unroll_ok step hnext, filled_of_unrollSteps_ok rest h⟩
end

-- ---------------------------------------------------------------------------
-- One stage after the other
-- ---------------------------------------------------------------------------

theorem unrollSteps_append (done : Unrolled) (steps later : List Classifier) :
    unrollSteps p target done (steps ++ later) =
      unrollSteps p target done steps >>= fun e => unrollSteps p target e later := by
  induction steps generalizing done with
  | nil => rfl
  | cons step rest ih =>
    simp only [List.cons_append, unrollSteps, bind_assoc]
    exact bind_congr fun next => ih _

/-- Rules in front of the first stage stay in front of all of them. -/
theorem unrollSteps_andThen (before : Rule) (done : Unrolled) (steps : List Classifier) :
    unrollSteps p target ⟨done.features, before.andThen done.rules⟩ steps =
      unrollSteps p target done steps >>= fun e => .ok ⟨e.features, before.andThen e.rules⟩ := by
  induction steps generalizing done with
  | nil => rfl
  | cons step rest ih =>
    simp only [unrollSteps, bind_assoc, Rule.andThen_assoc]
    exact bind_congr fun next => ih ⟨next.features, done.rules.andThen next.rules⟩

mutual
/-- Unrolling the stages of a classifier behind others is unrolling it behind them. -/
theorem unrollSteps_stages (done : Unrolled) : (c : Classifier) → c.Filled →
    unrollSteps p target done c.stages = unrollSteps p target done [c]
  | .pipeline (first :: rest), ⟨_, hfirst, hrest⟩ => by
    rw [stages, allStages, unrollSteps_append, unrollSteps_stages done first hfirst]
    simp only [unrollSteps, unroll, bind_assoc]
    refine bind_congr fun start => ?_
    exact (unrollSteps_allStages _ rest hrest).trans (unrollSteps_andThen done.rules start rest)
  | .tree _, _ | .linear _, _ | .perceptron _, _ | .scaler _, _ | .unsupported _, _ => rfl
theorem unrollSteps_allStages (done : Unrolled) : (steps : List Classifier) → AllFilled steps →
    unrollSteps p target done (allStages steps) = unrollSteps p target done steps
  | [], _ => rfl
  | step :: rest, ⟨hstep, hrest⟩ => by
    rw [allStages, unrollSteps_append, unrollSteps_stages done step hstep]
    simp only [unrollSteps, bind_assoc]
    exact bind_congr fun next => unrollSteps_allStages _ rest hrest
end

theorem unroll_pipeline_append {steps : List Classifier} (h : steps ≠ []) (later : List Classifier) :
    (pipeline (steps ++ later)).unroll p target features =
      (pipeline steps).unroll p target features >>= fun e => unrollSteps p target e later := by
  cases steps with
  | nil => exact absurd rfl h
  | cons first rest =>
    simp only [List.cons_append, unroll, bind_assoc]
    exact bind_congr fun start => unrollSteps_append start rest later

theorem unroll_stages : (c : Classifier) → c.Filled →
    (pipeline c.stages).unroll p target features = c.unroll p target features
  | .pipeline (first :: rest), ⟨_, hfirst, hrest⟩ => by
    rw [stages, allStages, unroll_pipeline_append hfirst.stages_ne_nil, unroll_stages first hfirst]
    exact bind_congr fun start => unrollSteps_allStages start rest hrest
  | .tree _, _ | .linear _, _ | .perceptron _, _ | .scaler _, _ | .unsupported _, _ =>
    bind_pure _

-- ---------------------------------------------------------------------------
-- What the stages return
-- ---------------------------------------------------------------------------

theorem unrollSteps_ok {done e : Unrolled} {steps : List Classifier}
    (h : unrollSteps p target done steps = .ok e) :
    ∃ parts, Staged p target done.features steps parts e.features ∧
      e.rules.statements = done.rules.statements ++ parts.flatMap (·.rules.statements) := by
  induction steps generalizing done with
  | nil =>
    cases h
    exact ⟨[], .nil, by simp⟩
  | cons step rest ih =>
    obtain ⟨next, hnext, h⟩ := bind_ok h
    obtain ⟨parts, hparts, hstatements⟩ := ih h
    exact ⟨next :: parts, .cons hnext hparts, by simpa using hstatements⟩

/-- The steps fail with an error of one of them, behind others that do not fail. -/
theorem unrollSteps_error_iff (done : Unrolled) {steps : List Classifier} {error : UnrollError} :
    unrollSteps p target done steps = .error error ↔
      ∃ before step after parts visible, steps = before ++ step :: after ∧
        Staged p target done.features before parts visible ∧
        step.unroll p target visible = .error error := by
  induction steps generalizing done with
  | nil => simp [unrollSteps]
  | cons step rest ih =>
    constructor
    · intro h
      unfold unrollSteps at h
      cases hstep : step.unroll p target done.features with
      | error failed =>
        rw [hstep] at h
        cases h
        exact ⟨[], step, rest, [], done.features, rfl, .nil, hstep⟩
      | ok next =>
        rw [hstep] at h
        obtain ⟨before, failing, after, parts, visible, rfl, hbefore, hfails⟩ := (ih _).mp h
        exact ⟨step :: before, failing, after, next :: parts, visible, rfl, .cons hstep hbefore,
          hfails⟩
    · rintro ⟨before, failing, after, parts, visible, hsteps, hbefore, hfails⟩
      cases hbefore with
      | nil =>
        cases hsteps
        simp [unrollSteps, hfails, bind, Except.bind]
      | cons hstep hbefore =>
        cases hsteps
        rw [unrollSteps, hstep]
        exact (ih _).mpr ⟨_, failing, after, _, visible, rfl, hbefore, hfails⟩

/-- A classifier behind no rules, as the steps of one stage. -/
theorem unrollSteps_singleton (c : Classifier) :
    unrollSteps p target ⟨features, .sequence []⟩ [c] =
      c.unroll p target features >>= fun e => .ok ⟨e.features, .sequence e.rules.statements⟩ :=
  rfl

theorem unroll_ok {c : Classifier} (hc : c.Filled) {e : Unrolled}
    (h : c.unroll p target features = .ok e) :
    ∃ parts, Staged p target features c.stages parts e.features ∧
      e.rules.statements = parts.flatMap (·.rules.statements) := by
  have hsteps : unrollSteps p target ⟨features, .sequence []⟩ c.stages =
      .ok ⟨e.features, .sequence e.rules.statements⟩ := by
    rw [unrollSteps_stages _ c hc, unrollSteps_singleton, h]
    rfl
  exact unrollSteps_ok hsteps

theorem unroll_error_iff {c : Classifier} (hc : c.Filled) {error : UnrollError} :
    c.unroll p target features = .error error ↔
      ∃ before stage after parts visible, c.stages = before ++ stage :: after ∧
        Staged p target features before parts visible ∧
        stage.unroll p target visible = .error error := by
  rw [← unrollSteps_error_iff ⟨features, .sequence []⟩, unrollSteps_stages _ c hc,
    unrollSteps_singleton]
  cases c.unroll p target features with
  | error failed => exact Iff.rfl
  | ok e => exact ⟨fun h => (nomatch h), fun h => (nomatch h)⟩

/-- A classifier without empty pipelines unrolls as the one pipeline of its stages from left to right.
Its block holds the lines of each of them, unrolled with the features that the one before leaves, and
it fails as the first of them that fails. -/
theorem unroll_flat (c : Classifier) (hc : c.Filled) :
    (∀ stage ∈ c.stages, ∀ steps, stage ≠ .pipeline steps) ∧
    c.unroll p target features = (pipeline c.stages).unroll p target features ∧
    (∀ e, c.unroll p target features = .ok e →
      ∃ parts, Staged p target features c.stages parts e.features ∧
        ∀ (q : Params) (fairness : List Predicate),
          (Block.classifier q e.rules fairness).body =
            (parts.flatMap fun part => (Block.classifier q part.rules []).body) ++
              fairness.map (·.declaration q.literalPlaces "fairnessTarget")) ∧
    ∀ error, c.unroll p target features = .error error ↔
      ∃ before stage after parts visible, c.stages = before ++ stage :: after ∧
        Staged p target features before parts visible ∧
        stage.unroll p target visible = .error error := by
  refine ⟨not_pipeline_of_mem_stages c, (unroll_stages c hc).symm, fun e h => ?_,
    fun error => unroll_error_iff hc⟩
  obtain ⟨parts, hparts, hstatements⟩ := unroll_ok hc h
  refine ⟨parts, hparts, fun q fairness => ?_⟩
  simp [Block.classifier, Rule.lines_of_statements hstatements]

/-- Two scalers and a linear model, nested in different ways. -/
def scaledTwice : Classifier :=
  .pipeline [.pipeline [.scaler ⟨some [0.5], some [2]⟩],
    .pipeline [.pipeline [.scaler ⟨none, none⟩], .linear ⟨[1], 0⟩]]

theorem unroll_flat_scaledTwice :
    scaledTwice.Filled ∧
    scaledTwice.unroll {} "label" ["x"] =
      (pipeline [.scaler ⟨some [0.5], some [2]⟩, .scaler ⟨none, none⟩, .linear ⟨[1], 0⟩]).unroll {}
        "label" ["x"] ∧
    ∃ e parts, scaledTwice.unroll {} "label" ["x"] = .ok e ∧ e.features = ["scaled_scaled_x"] ∧
      Staged {} "label" ["x"] scaledTwice.stages parts ["scaled_scaled_x"] ∧
      (Block.classifier {} e.rules []).body =
        parts.flatMap fun part => (Block.classifier {} part.rules []).body := by
  have hfilled : scaledTwice.Filled := by
    simp [scaledTwice, Filled, AllFilled]
  obtain ⟨e, h, hfeatures⟩ : ∃ e, scaledTwice.unroll {} "label" ["x"] = .ok e ∧
      e.features = ["scaled_scaled_x"] := ⟨_, rfl, rfl⟩
  obtain ⟨-, hflat, hparts, -⟩ := unroll_flat scaledTwice hfilled
  obtain ⟨parts, hstaged, hbody⟩ := hparts e h
  refine ⟨hfilled, hflat, e, parts, h, hfeatures, hfeatures ▸ hstaged, ?_⟩
  rw [hbody, List.map_nil, List.append_nil]

end Classifier

end FairProgram
