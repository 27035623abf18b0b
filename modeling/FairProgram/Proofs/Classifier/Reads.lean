import FairProgram.Proofs.Classifier.Shapes
import Mathlib

/-!
# Reading arrays by place

Unrolling takes the weights of a layer column by column, with the bias at the place of each neuron,
and the mean and the scale at the place of each feature. With the rows of a layer laid out in one
array, a weight stands at a place that its row and its column give. The checks that come before make
all these places exist, for every classifier whether it is accepted or not
(`Perceptron.readUnroll_eq`, `Scaler.readUnroll_eq`), and the array of a layer has the size of its
matrix.
-/

namespace FairProgram

/-- Unrolling that reads arrays by place; it has no result where a place is outside the array. -/
abbrev Reads :=
  OptionT (Except UnrollError)

def readAt {α : Type} (values : List α) (place : Nat) : Reads α :=
  OptionT.mk (.ok values[place]?)

section
variable {α β : Type}

theorem readAt_eq_pure {values : List α} {place : Nat} {a : α} (h : values[place]? = some a) :
    readAt values place = pure a := by
  rw [readAt, h]
  rfl

theorem mapM_eq_pure {read : α → Reads β} {items : List α} {values : List β}
    (hlength : items.length = values.length)
    (h : ∀ place (hi : place < items.length) (hv : place < values.length),
      read items[place] = pure values[place]) : items.mapM read = pure values := by
  have hall : List.Forall₂ (fun item value => read item = pure value) items values :=
    List.forall₂_iff_get.mpr ⟨hlength, h⟩
  clear hlength h
  induction hall with
  | nil => rfl
  | cons hfirst _ ih => simp [hfirst, ih]

theorem bind_error {ε : Type} {x : Except ε α} {f : α → Except ε β} {e : ε}
    (h : (x >>= f) = .error e) : x = .error e ∨ ∃ a, f a = .error e := by
  cases x with
  | error _ =>
    cases h
    exact .inl rfl
  | ok a => exact .inr ⟨a, h⟩

/-- Rows of one length, laid out one after another. -/
theorem getElem?_flatten {rows : List (List α)} {size : Nat} (h : ∀ row ∈ rows, row.length = size)
    (place : Nat) {offset : Nat} (ho : offset < size) :
    rows.flatten[place * size + offset]? = rows[place]?.bind (·[offset]?) := by
  induction rows generalizing place with
  | nil => rfl
  | cons first rest ih =>
    obtain ⟨hfirst, hrest⟩ := List.forall_mem_cons.mp h
    cases place with
    | zero =>
      have hlt : 0 * size + offset < first.length := by omega
      rw [List.flatten_cons, List.getElem?_append_left hlt]
      simp
    | succ place =>
      have hle : first.length ≤ (place + 1) * size + offset := by
        rw [hfirst, Nat.succ_mul]
        omega
      have hsub : (place + 1) * size + offset - first.length = place * size + offset := by
        rw [hfirst, Nat.succ_mul]
        omega
      rw [List.flatten_cons, List.getElem?_append_right hle, hsub, ih hrest]
      rfl

theorem length_flatten_of_forall {rows : List (List α)} {size : Nat}
    (h : ∀ row ∈ rows, row.length = size) : rows.flatten.length = rows.length * size := by
  rw [List.length_flatten, List.map_congr_left h]
  simp

end

-- ---------------------------------------------------------------------------
-- Perceptrons
-- ---------------------------------------------------------------------------

namespace Perceptron

/-- The weights of each neuron, from the rows laid out in one array once they have passed their
checks. The array must have the size of the matrix. -/
def readWeights (place inputs : Nat) (weights : List (List Float)) : Reads (List (List Float)) := do
  let _ ← neuronWeights place inputs weights
  let array := weights.flatten
  expectCount (layerName place ++ " weights") (inputs * width weights) array.length
  (List.range (width weights)).mapM fun neuron =>
    (List.range inputs).mapM fun input => readAt array (input * width weights + neuron)

/-- The statements of the neurons of one layer, with each bias read at the place of its neuron. -/
def readLayer (inputs : List String) (name : Nat → String) (neurons : List (List Float))
    (biases : List Float) (activation : Activation) : Reads (List Statement) := do
  let statements ← neurons.zipIdx.mapM fun (weights, neuron) => do
    let bias ← readAt biases neuron
    return neuronStatements (name neuron) inputs weights bias activation
  return statements.flatten

def readStatements (network : Perceptron) (target : String) :
    (place : Nat) → (inputs : List String) → List (List (List Float) × List Float) →
      Reads (List Statement)
  | _, _, [] => pure []
  | place, inputs, (weights, biases) :: rest => do
    let neurons ← readWeights place inputs.length weights
    expectCount (layerName place ++ " biases") neurons.length biases.length
    if rest.isEmpty then expectCount "mlp output neurons" 1 neurons.length
    let name := neuronName target rest.isEmpty place
    let statements ← readLayer inputs name neurons biases (network.activation rest.isEmpty)
    let names := (List.range neurons.length).map name
    let later ← readStatements network target (place + 1) names rest
    return statements ++ later

def readUnroll (network : Perceptron) (features : List String) (target : String)
    (offset : Option Float) : Reads Rule := do
  network.hidden.require
  network.output.require
  if network.weights.length = 0 then throwThe UnrollError (.shape "mlp layers" 1 0)
  expectCount "mlp intercepts" network.weights.length network.biases.length
  let statements ←
    readStatements network target 0 features (network.weights.zip network.biases)
  return .sequence (statements ++ (offset.map (Statement.addConstant target)).toList)

variable {network : Perceptron} {features inputs : List String} {target : String} {place : Nat}
  {weights neurons : List (List Float)} {biases : List Float}

theorem readWeights_eq {inputs : Nat} :
    readWeights place inputs weights = monadLift (neuronWeights place inputs weights) := by
  unfold readWeights
  cases hneurons : neuronWeights place inputs weights with
  | error e => rfl
  | ok neurons =>
    obtain ⟨rfl, hpos, hrow, rfl⟩ := neuronWeights_eq_ok_iff.mp hneurons
    have hcolumn (neuron : Nat) (hn : neuron < width weights) :
        (List.range weights.length).mapM (fun input =>
          readAt weights.flatten (input * width weights + neuron)) =
        pure (column weights neuron) := by
      refine mapM_eq_pure (by simp [column_eq_map hrow hn]) fun input _ hv => readAt_eq_pure ?_
      rw [List.getElem_range, getElem?_flatten hrow input hn, ← getElem?_column hrow hn,
        List.getElem?_eq_getElem hv]
    have hread : (List.range (width weights)).mapM (fun neuron =>
          (List.range weights.length).mapM fun input =>
            readAt weights.flatten (input * width weights + neuron)) = pure (columns weights) := by
      refine mapM_eq_pure (by simp [columns]) fun neuron hn _ => ?_
      simpa [columns] using hcolumn neuron (by simpa using hn)
    have hsize : expectCount (layerName place ++ " weights") (weights.length * width weights)
        weights.flatten.length = .ok () := by
      rw [length_flatten_of_forall hrow, expectCount, if_pos rfl]
    simp only [hsize]
    exact hread

theorem readLayer_eq (h : biases.length = neurons.length) (name : Nat → String)
    (activation : Activation) : readLayer inputs name neurons biases activation =
      pure (layer inputs ((List.range neurons.length).map name) neurons biases activation) := by
  have hread : (neurons.zipIdx.mapM fun neuron => do
      let bias ← readAt biases neuron.2
      return neuronStatements (name neuron.2) inputs neuron.1 bias activation) =
    pure (f := Reads) (((((List.range neurons.length).map name).zip neurons).zip biases).map
      fun neuron => neuronStatements neuron.1.1 inputs neuron.1.2 neuron.2 activation) := by
    refine mapM_eq_pure (by simp [h]) fun neuron hn _ => ?_
    have hn : neuron < biases.length := by simpa [h] using hn
    simp [readAt_eq_pure (List.getElem?_eq_getElem hn)]
  have hlayer : layer inputs ((List.range neurons.length).map name) neurons biases activation =
      ((((List.range neurons.length).map name).zip neurons).zip biases).flatMap
        fun neuron => neuronStatements neuron.1.1 inputs neuron.1.2 neuron.2 activation := rfl
  rw [hlayer, List.flatMap_def]
  show (neurons.zipIdx.mapM _ >>= _) = _
  rw [hread]
  rfl

theorem readStatements_eq {layers : List (List (List Float) × List Float)} :
    readStatements network target place inputs layers =
      monadLift (layerStatements network target place inputs layers) := by
  induction layers generalizing place inputs with
  | nil => rfl
  | cons first rest ih =>
    obtain ⟨weights, biases⟩ := first
    unfold readStatements layerStatements
    rw [readWeights_eq, monadLift_bind]
    refine bind_congr fun neurons => ?_
    cases hcount : expectCount (layerName place ++ " biases") neurons.length biases.length with
    | error e => rfl
    | ok u =>
      have hlater : (do
          let statements ← readLayer inputs (neuronName target rest.isEmpty place) neurons biases
            (network.activation rest.isEmpty)
          let later ← readStatements network target (place + 1)
            ((List.range neurons.length).map (neuronName target rest.isEmpty place)) rest
          return statements ++ later) = monadLift (do
            let later ← layerStatements network target (place + 1)
              ((List.range neurons.length).map (neuronName target rest.isEmpty place)) rest
            return layer inputs ((List.range neurons.length).map
              (neuronName target rest.isEmpty place)) neurons biases
                (network.activation rest.isEmpty) ++ later) := by
        rw [readLayer_eq (expectCount_ok hcount), ih, pure_bind, monadLift_bind]
        rfl
      cases rest with
      | nil =>
        show (monadLift (n := Reads) (expectCount "mlp output neurons" 1 neurons.length) >>= _) =
          monadLift (expectCount "mlp output neurons" 1 neurons.length >>= fun _ => _)
        rw [monadLift_bind]
        exact bind_congr fun _ => hlater
      | cons next rest => exact hlater

theorem readUnroll_eq {offset : Option Float} :
    network.readUnroll features target offset =
      monadLift (network.unroll features target offset) := by
  unfold readUnroll unroll
  rw [monadLift_bind]
  refine bind_congr fun _ => ?_
  rw [monadLift_bind]
  refine bind_congr fun _ => ?_
  dsimp only
  split
  · rfl
  · show (monadLift (expectCount _ _ _) >>= _) = monadLift (expectCount _ _ _ >>= _)
    rw [monadLift_bind]
    refine bind_congr fun _ => ?_
    rw [readStatements_eq, monadLift_bind]
    cases offset <;> rfl

-- ---------------------------------------------------------------------------
-- Errors
-- ---------------------------------------------------------------------------

/-- The last letters of a text, from its end. -/
def ending (text : String) : List Char :=
  text.toList.reverse.take 4

theorem ending_append {text : String} (front : String) (h : 4 ≤ text.toList.length) :
    ending (front ++ text) = ending text := by
  simp [ending, List.take_append_of_le_length, h]

/-- An error other than that the array of a layer has not the size of its matrix. -/
def NotArraySize (e : UnrollError) : Prop :=
  ∀ what expected found, e = .shape what expected found → ending what ≠ ending " weights"

theorem expectCount_notArraySize {what : String} {expected found : Nat} {e : UnrollError}
    (hw : ending what ≠ ending " weights") (h : expectCount what expected found = .error e) :
    NotArraySize e := by
  unfold expectCount at h
  split at h
  · cases h
  · cases h
    rintro _ _ _ ⟨⟩
    exact hw

theorem require_notArraySize {activation : Activation} {e : UnrollError}
    (h : activation.require = .error e) : NotArraySize e := by
  cases activation with
  | relu | logistic | identity => cases h
  | unsupported name =>
    cases h
    exact fun _ _ _ h => (nomatch h)

theorem shape_notArraySize {front text : String} {expected found : Nat}
    (hl : 4 ≤ text.toList.length) (hw : ending text ≠ ending " weights") :
    NotArraySize (.shape (front ++ text) expected found) := by
  rintro _ _ _ ⟨⟩
  rwa [ending_append front hl]

theorem neuronWeights_notArraySize {inputs : Nat} {e : UnrollError}
    (h : neuronWeights place inputs weights = .error e) : NotArraySize e := by
  have hneurons (expected found : Nat) :
      NotArraySize (.shape (layerName place ++ " neurons") expected found) :=
    shape_notArraySize (by decide) (by decide)
  rcases bind_error h with h | ⟨_, h⟩
  · exact expectCount_notArraySize (by rw [ending_append _ (by decide)]; decide) h
  · dsimp only at h
    split at h
    · cases h
      exact hneurons _ _
    · split at h
      · cases h
        exact hneurons _ _
      · cases h

theorem layerStatements_notArraySize {layers : List (List (List Float) × List Float)}
    {e : UnrollError}
    (h : layerStatements network target place inputs layers = .error e) : NotArraySize e := by
  induction layers generalizing place inputs with
  | nil => cases h
  | cons first rest ih =>
    rcases bind_error h with h | ⟨neurons, h⟩
    · exact neuronWeights_notArraySize h
    rcases bind_error h with h | ⟨_, h⟩
    · exact expectCount_notArraySize (by rw [ending_append _ (by decide)]; decide) h
    cases rest with
    | nil =>
      rcases bind_error h with h | ⟨_, h⟩
      · exact expectCount_notArraySize (by decide) h
      · cases h
    | cons next rest =>
      rcases bind_error h with h | ⟨_, h⟩
      · exact ih h
      · cases h

theorem unroll_notArraySize {offset : Option Float} {e : UnrollError}
    (h : network.unroll features target offset = .error e) : NotArraySize e := by
  rcases bind_error h with h | ⟨_, h⟩
  · exact require_notArraySize h
  rcases bind_error h with h | ⟨_, h⟩
  · exact require_notArraySize h
  dsimp only at h
  split at h
  · cases h
    exact fun _ _ _ h => by cases h; decide
  rcases bind_error h with h | ⟨_, h⟩
  · exact expectCount_notArraySize (by decide) h
  rcases bind_error h with h | ⟨_, h⟩
  · exact layerStatements_notArraySize h
  · cases h

end Perceptron

-- ---------------------------------------------------------------------------
-- Scalers
-- ---------------------------------------------------------------------------

namespace Scaler

/-- The scaled features, with each mean and each scale read at the place of its feature. -/
def readStatements (scaler : Scaler) (features : List String) : Reads (List Statement) :=
  features.zipIdx.mapM fun (feature, place) => do
    let mean ← scaler.mean.elim (pure 0) (readAt · place)
    let scale ← scaler.scale.elim (pure 1) (readAt · place)
    return statement feature mean scale

def readUnroll (scaler : Scaler) (features : List String) : Reads Unrolled := do
  expectValues "scaler mean" features.length scaler.mean
  expectValues "scaler scale" features.length scaler.scale
  let statements ← readStatements scaler features
  return ⟨features.map scaledName, .sequence statements⟩

variable {scaler : Scaler} {features : List String}

theorem read_eq {default : Float} {values : Option (List Float)} {place : Nat}
    (h : place < (valuesOr default features values).length) :
    values.elim (pure default) (readAt · place) =
      pure (valuesOr default features values)[place] := by
  cases values with
  | none => simp [valuesOr]
  | some given => exact readAt_eq_pure (List.getElem?_eq_getElem h)

theorem readStatements_eq (h : scaler.Fits features.length) :
    readStatements scaler features = pure (statements features
      (valuesOr 0 features scaler.mean) (valuesOr 1 features scaler.scale)) := by
  have hmean := length_valuesOr 0 h.mean
  have hscale := length_valuesOr 1 h.scale
  refine mapM_eq_pure (by simp [statements, hmean, hscale]) fun place hplace _ => ?_
  have hplace : place < features.length := by simpa using hplace
  simp [statements, read_eq (hmean ▸ hplace), read_eq (hscale ▸ hplace)]

theorem readUnroll_eq : scaler.readUnroll features = monadLift (scaler.unroll features) := by
  unfold readUnroll unroll
  cases hmean : expectValues "scaler mean" features.length scaler.mean with
  | error e => rfl
  | ok u =>
    cases hscale : expectValues "scaler scale" features.length scaler.scale with
    | error e => rfl
    | ok u =>
      rw [readStatements_eq ⟨expectValues_ok hmean, expectValues_ok hscale⟩]
      rfl

end Scaler

-- ---------------------------------------------------------------------------
-- Classifiers
-- ---------------------------------------------------------------------------

/-- Linear models, scalers and perceptrons are unrolled exactly where their arrays fit, with a term
of its own for each weight, and no array is read outside its places. -/
theorem Classifier.unroll_arrays (p : Params) (target : String) (features : List String) :
    (∀ model : LinearModel,
      ((∃ e, (linear model).unroll p target features = .ok e) ↔
        model.weights.length = features.length) ∧
      ∀ e, (linear model).unroll p target features = .ok e → e.features = features ∧
        ∃ statements, e.rules = .sequence statements ∧
          IsNeuron target features (model.weights[·]?) model.intercept .identity statements) ∧
    (∀ s : Scaler,
      ((∃ e, (scaler s).unroll p target features = .ok e) ↔ s.Fits features.length) ∧
      s.readUnroll features = monadLift ((scaler s).unroll p target features) ∧
      ∀ e, (scaler s).unroll p target features = .ok e →
        e.features = features.map Scaler.scaledName ∧
        ∃ statements, e.rules = .sequence statements ∧ s.HasScaled features statements) ∧
    ∀ network : Perceptron,
      ((∃ e, (perceptron network).unroll p target features = .ok e) ↔
        network.Fits features.length) ∧
      network.readUnroll features target p.outputOffset =
        monadLift (network.unroll features target p.outputOffset) ∧
      (∀ place expected found, (perceptron network).unroll p target features ≠
        .error (.shape (Perceptron.layerName place ++ " weights") expected found)) ∧
      ∀ e, (perceptron network).unroll p target features = .ok e → e.features = features ∧
        ∃ statements, e.rules = .sequence
            (statements ++ (p.outputOffset.map (Statement.addConstant target)).toList) ∧
          network.HasLayers target 0 features (network.weights.zip network.biases) statements := by
  refine ⟨fun model => ?_, fun s => ?_, fun network => ?_⟩
  · simp only [unroll_linear_eq_ok_iff, LinearModel.unroll_eq_ok_iff]
    refine ⟨⟨?_, fun h => ⟨_, _, ⟨h, rfl⟩, rfl⟩⟩, ?_⟩
    · rintro ⟨_, _, ⟨h, -⟩, -⟩
      exact h
    · rintro _ ⟨_, ⟨h, rfl⟩, rfl⟩
      exact ⟨rfl, _, rfl, LinearModel.isNeuron_linear h⟩
  · refine ⟨?_, Scaler.readUnroll_eq, fun e h => ?_⟩
    · simp only [unroll, Scaler.unroll_eq_ok_iff]
      exact ⟨fun ⟨_, h, _⟩ => h, fun h => ⟨_, h, rfl⟩⟩
    · obtain ⟨hfits, rfl⟩ := Scaler.unroll_eq_ok_iff.mp h
      exact ⟨rfl, _, rfl, Scaler.hasScaled_of_fits hfits⟩
  · refine ⟨?_, Perceptron.readUnroll_eq, fun place expected found h => ?_, fun e h => ?_⟩
    · rw [← Perceptron.exists_unroll_iff target p.outputOffset]
      simp only [unroll_perceptron_eq_ok_iff]
      exact ⟨fun ⟨_, rule, h, _⟩ => ⟨rule, h⟩, fun ⟨rule, h⟩ => ⟨_, rule, h, rfl⟩⟩
    · rcases bind_error h with h | ⟨_, h⟩
      · exact Perceptron.unroll_notArraySize h _ _ _ rfl (Perceptron.ending_append _ (by decide))
      · cases h
    · obtain ⟨rule, hrule, rfl⟩ := unroll_perceptron_eq_ok_iff.mp h
      obtain ⟨-, -, -, -, statements, hstatements, rfl⟩ := Perceptron.unroll_eq_ok_iff.mp hrule
      exact ⟨rfl, statements, rfl, Perceptron.hasLayers_of_ok hstatements⟩

end FairProgram
