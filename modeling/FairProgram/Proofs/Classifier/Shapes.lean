import FairProgram.Proofs.Classifier.Assignments
import Mathlib

/-!
# Which arrays fit

A linear model needs a weight for each feature, a scaler a value for each feature in the arrays that
it has, and a perceptron layers whose matrices chain from the features to one neuron (`Fits`). These
are unrolled and no others (`exists_unroll_iff`), with every weight in a term of its own: each layer
as neurons of its inputs (`HasLayers`), each scaled feature with its own mean and scale
(`HasScaled`).
-/

namespace FairProgram

section
variable {α : Type} {what : String} {expected found : Nat} {f : Unit → Except UnrollError α} {a : α}

theorem bind_eq_ok_iff {ε β : Type} {x : Except ε α} {f : α → Except ε β} {b : β} :
    (x >>= f) = .ok b ↔ ∃ a, x = .ok a ∧ f a = .ok b := by
  refine ⟨bind_ok, ?_⟩
  rintro ⟨a, rfl, h⟩
  exact h

theorem expectCount_bind_eq_ok_iff :
    (expectCount what expected found >>= f) = .ok a ↔ found = expected ∧ f () = .ok a := by
  constructor
  · intro h
    obtain ⟨_, hcount, h⟩ := bind_ok h
    exact ⟨expectCount_ok hcount, h⟩
  · rintro ⟨h, hf⟩
    rw [expectCount, if_pos h]
    exact hf

end

theorem Activation.require_bind_eq_ok_iff {α : Type} {activation : Activation}
    {f : Unit → Except UnrollError α} {a : α} : (activation.require >>= f) = .ok a ↔
      (∀ name, activation ≠ .unsupported name) ∧ f () = .ok a := by
  cases activation with
  | relu | logistic | identity => exact ⟨fun h => ⟨fun _ h => (nomatch h), h⟩, fun h => h.2⟩
  | unsupported name => exact ⟨fun h => (nomatch h), fun h => absurd rfl (h.1 name)⟩

/-- A sum with one term for each input, in order and with its own weight. -/
def Expr.IsWeightedSum (inputs : List String) (weight? : Nat → Option Float) (value : Expr) :
    Prop :=
  ∃ terms, value = .sum terms ∧ terms.length = inputs.length ∧
    ∀ (input : Nat) name, inputs[input]? = some name → ∃ weight, weight? input = some weight ∧
      terms[input]? = some (.binary .mul (.var name) (.real weight))

/-- A weighted sum of the inputs, a constant and an activation, assigned to one variable. -/
def IsNeuron (name : String) (inputs : List String) (weight? : Nat → Option Float)
    (constant : Float) (activation : Activation) (statements : List Statement) : Prop :=
  ∃ value : Expr, value.IsWeightedSum inputs weight? ∧
    statements =
      .assign name value :: Statement.addConstant name constant :: activation.statements name

theorem Expr.isWeightedSum_weightedSum {inputs : List String} {weights : List Float}
    (h : weights.length = inputs.length) :
    (weightedSum inputs weights).IsWeightedSum inputs (weights[·]?) := by
  refine ⟨_, rfl, by simp [h], fun input name hname => ?_⟩
  obtain ⟨hlt, -⟩ := List.getElem?_eq_some_iff.mp hname
  refine ⟨weights[input], by simp, ?_⟩
  simp [List.getElem?_zip_eq_some, hname, h ▸ hlt]

-- ---------------------------------------------------------------------------
-- Layers
-- ---------------------------------------------------------------------------

namespace Perceptron

def column (weights : List (List Float)) (neuron : Nat) : List Float :=
  weights.filterMap (·[neuron]?)

def columns (weights : List (List Float)) : List (List Float) :=
  (List.range (width weights)).map (column weights)

def neuronNames (target : String) (isLast : Bool) (place : Nat) (weights : List (List Float)) :
    List String :=
  (List.range (width weights)).map (neuronName target isLast place)

def activation (network : Perceptron) (isLast : Bool) : Activation :=
  if isLast then network.output else network.hidden

/-- A matrix with a row for each input and neurons in its columns, and a bias for each neuron. -/
structure FitsLayer (inputs : Nat) (weights : List (List Float)) (biases : List Float) : Prop where
  rows : weights.length = inputs
  neurons : 0 < width weights
  row : ∀ row ∈ weights, row.length = width weights
  biases : biases.length = width weights

section
variable {place neuron : Nat} {weights neurons : List (List Float)} {biases : List Float}

theorem neuronWeights_eq_ok_iff {inputs : Nat} :
    neuronWeights place inputs weights = .ok neurons ↔ weights.length = inputs ∧
      0 < width weights ∧ (∀ row ∈ weights, row.length = width weights) ∧
      neurons = columns weights := by
  rw [neuronWeights, expectCount_bind_eq_ok_iff]
  refine and_congr_right fun _ => ?_
  show (if width weights = 0 then _ else _) = _ ↔ _
  split
  · rename_i hzero
    exact iff_of_false (by rintro ⟨⟩) (by simp [hzero])
  · rename_i hne
    dsimp only
    split
    · rename_i row hfound
      have hmem := List.mem_of_find?_eq_some hfound
      have hrow : row.length ≠ width weights := by simpa [width] using List.find?_some hfound
      exact iff_of_false (by rintro ⟨⟩) fun h => hrow (h.2.1 row hmem)
    · rename_i hnone
      have hrow : ∀ row ∈ weights, row.length = width weights := by simpa [width] using hnone
      exact ⟨fun h => ⟨Nat.pos_of_ne_zero hne, hrow, (Except.ok.inj h).symm⟩,
        fun h => congrArg _ h.2.2.symm⟩

theorem column_eq_map (h : ∀ row ∈ weights, row.length = width weights)
    (hn : neuron < width weights) : column weights neuron = weights.map (·.getD neuron 0) := by
  rw [column, ← List.filterMap_eq_map]
  refine List.filterMap_congr fun row hrow => ?_
  have hlt : neuron < row.length := h row hrow ▸ hn
  simp [List.getD_eq_getElem?_getD, hlt]

theorem getElem?_column (h : ∀ row ∈ weights, row.length = width weights)
    (hn : neuron < width weights) (input : Nat) :
    (column weights neuron)[input]? = weights[input]?.bind (·[neuron]?) := by
  rw [column_eq_map h hn, List.getElem?_map]
  cases hrow : weights[input]? with
  | none => rfl
  | some row =>
    have hlt : neuron < row.length := h row (List.mem_of_getElem? hrow) ▸ hn
    simp [List.getD_eq_getElem?_getD, hlt]

variable {network : Perceptron} {target : String} {inputs : List String}
  {statements : List Statement}

/-- One layer: it fits its inputs, and its statements stand before those of the layers it feeds. -/
theorem layerStatements_cons_eq_ok_iff {rest : List (List (List Float) × List Float)} :
    layerStatements network target place inputs ((weights, biases) :: rest) = .ok statements ↔
      FitsLayer inputs.length weights biases ∧ (rest = [] → width weights = 1) ∧ ∃ later,
        layerStatements network target (place + 1) (neuronNames target rest.isEmpty place weights)
          rest = .ok later ∧
        statements = layer inputs (neuronNames target rest.isEmpty place weights) (columns weights)
          biases (network.activation rest.isEmpty) ++ later := by
  have hcount : (columns weights).length = width weights := by simp [columns]
  have hnames : (List.range (columns weights).length).map (neuronName target rest.isEmpty place) =
      neuronNames target rest.isEmpty place weights := by rw [hcount]; rfl
  constructor
  · intro h
    obtain ⟨neurons, hneurons, h⟩ := bind_ok h
    obtain ⟨hrows, hpos, hrow, rfl⟩ := neuronWeights_eq_ok_iff.mp hneurons
    obtain ⟨hbiases, h⟩ := expectCount_bind_eq_ok_iff.mp h
    have hfits : FitsLayer inputs.length weights biases := ⟨hrows, hpos, hrow, hcount ▸ hbiases⟩
    cases rest with
    | nil =>
      obtain ⟨hone, h⟩ := expectCount_bind_eq_ok_iff.mp h
      obtain ⟨later, hlater, h⟩ := bind_ok h
      rw [hnames] at hlater
      refine ⟨hfits, fun _ => hcount ▸ hone, later, hlater, ?_⟩
      rw [← hnames]
      exact (Except.ok.inj h).symm
    | cons next rest =>
      obtain ⟨later, hlater, h⟩ := bind_ok h
      rw [hnames] at hlater
      refine ⟨hfits, fun h => (nomatch h), later, hlater, ?_⟩
      rw [← hnames]
      exact (Except.ok.inj h).symm
  · rintro ⟨⟨hrows, hpos, hrow, hbiases⟩, hlast, later, hlater, rfl⟩
    have hneurons : neuronWeights place inputs.length weights = .ok (columns weights) :=
      neuronWeights_eq_ok_iff.mpr ⟨hrows, hpos, hrow, rfl⟩
    rw [layerStatements]
    refine bind_eq_ok_iff.mpr ⟨_, hneurons, expectCount_bind_eq_ok_iff.mpr ⟨hcount ▸ hbiases, ?_⟩⟩
    cases rest with
    | nil =>
      refine expectCount_bind_eq_ok_iff.mpr ⟨hcount ▸ hlast rfl, ?_⟩
      rw [← hnames] at hlater ⊢
      exact bind_eq_ok_iff.mpr ⟨later, hlater, rfl⟩
    | cons next rest =>
      rw [← hnames] at hlater ⊢
      exact bind_eq_ok_iff.mpr ⟨later, hlater, rfl⟩

/-- Layers that fit the number of inputs that feed the first of them, the last with one neuron. -/
def LayersFit : Nat → List (List (List Float) × List Float) → Prop
  | _, [] => True
  | inputs, (weights, biases) :: rest =>
    FitsLayer inputs weights biases ∧ (rest = [] → width weights = 1) ∧
      LayersFit (width weights) rest

theorem exists_layerStatements_iff (network : Perceptron) (target : String) (place : Nat)
    {layers : List (List (List Float) × List Float)} :
    (∃ statements, layerStatements network target place inputs layers = .ok statements) ↔
      LayersFit inputs.length layers := by
  induction layers generalizing place inputs with
  | nil => exact iff_of_true ⟨[], rfl⟩ trivial
  | cons first rest ih =>
    obtain ⟨weights, biases⟩ := first
    have hlength : (neuronNames target rest.isEmpty place weights).length = width weights := by
      simp [neuronNames]
    rw [LayersFit, ← hlength, ← ih (place + 1), hlength]
    simp only [layerStatements_cons_eq_ok_iff]
    constructor
    · rintro ⟨_, hfits, hlast, later, hlater, -⟩
      exact ⟨hfits, hlast, later, hlater⟩
    · rintro ⟨hfits, hlast, later, hlater⟩
      exact ⟨_, hfits, hlast, later, hlater, rfl⟩

theorem fitsLayer_iff {inputs : Nat} : FitsLayer inputs weights biases ↔ 0 < inputs ∧
    weights.length = inputs ∧ (∀ row ∈ weights, row ≠ [] ∧ row.length = width weights) ∧
      biases.length = width weights := by
  constructor
  · rintro ⟨rfl, hpos, hrow, hbiases⟩
    refine ⟨?_, rfl, fun row hmem => ⟨?_, hrow row hmem⟩, hbiases⟩
    · rw [List.length_pos_iff]
      rintro rfl
      exact absurd hpos (lt_irrefl 0)
    · rw [← List.length_pos_iff, hrow row hmem]
      exact hpos
  · rintro ⟨hpos, rfl, hrow, hbiases⟩
    refine ⟨rfl, ?_, fun row hmem => (hrow row hmem).2, hbiases⟩
    obtain ⟨row, hmem⟩ := List.exists_mem_of_length_pos hpos
    rw [← (hrow row hmem).2, List.length_pos_iff]
    exact (hrow row hmem).1

/-- Layers fit where each has a row for each neuron of the one before. -/
theorem layersFit_iff (inputs : Nat) {layers : List (List (List Float) × List Float)}
    (hne : layers ≠ []) : LayersFit inputs layers ↔ 0 < inputs ∧
      (∀ layer ∈ layers.head?, layer.1.length = inputs) ∧
      layers.IsChain (fun before after => after.1.length = width before.1) ∧
      (∀ layer ∈ layers, ∀ row ∈ layer.1, row ≠ [] ∧ row.length = width layer.1) ∧
      (∀ layer ∈ layers, layer.2.length = width layer.1) ∧
      ∀ layer ∈ layers.getLast?, width layer.1 = 1 := by
  induction layers generalizing inputs with
  | nil => exact absurd rfl hne
  | cons first rest ih =>
    cases rest with
    | nil => simp [LayersFit, fitsLayer_iff, and_assoc]
    | cons next rest =>
      rw [LayersFit, ih _ (List.cons_ne_nil _ _), List.isChain_cons_cons, List.getLast?_cons_cons]
      constructor
      · rintro ⟨hfits, -, -, hnext, hchain, hrows, hbiases, hlast⟩
        obtain ⟨hpos, hlength, hrow, hbias⟩ := fitsLayer_iff.mp hfits
        exact ⟨hpos, by simpa using hlength, ⟨by simpa using hnext, hchain⟩,
          List.forall_mem_cons.mpr ⟨hrow, hrows⟩, List.forall_mem_cons.mpr ⟨hbias, hbiases⟩, hlast⟩
      · rintro ⟨hpos, hlength, ⟨hnext, hchain⟩, hrows, hbiases, hlast⟩
        obtain ⟨hrow, hrows⟩ := List.forall_mem_cons.mp hrows
        obtain ⟨hbias, hbiases⟩ := List.forall_mem_cons.mp hbiases
        have hfits : FitsLayer inputs first.1 first.2 :=
          fitsLayer_iff.mpr ⟨hpos, by simpa using hlength, hrow, hbias⟩
        exact ⟨hfits, fun h => (nomatch h), hfits.neurons, by simpa using hnext, hchain, hrows,
          hbiases, hlast⟩

/-- The statements of each layer: those of its neurons in order, each neuron with a weight for every
input of the layer and with its own bias, and then those of the layers that it feeds. -/
def HasLayers (network : Perceptron) (target : String) :
    Nat → List String → List (List (List Float) × List Float) → List Statement → Prop
  | _, _, [], statements => statements = []
  | place, inputs, (weights, biases) :: rest, statements =>
    ∃ (neurons : List (List Statement)) (later : List Statement),
      statements = neurons.flatten ++ later ∧ neurons.length = width weights ∧
      (∀ neuron < width weights, ∃ own bias, neurons[neuron]? = some own ∧
        biases[neuron]? = some bias ∧
        IsNeuron (neuronName target rest.isEmpty place neuron) inputs
          (fun input => weights[input]?.bind (·[neuron]?)) bias (network.activation rest.isEmpty)
          own) ∧
      HasLayers network target (place + 1) (neuronNames target rest.isEmpty place weights) rest
        later

/-- The statements of the neurons of one layer. -/
theorem exists_neurons_of_fitsLayer (network : Perceptron) (target : String) (isLast : Bool)
    (h : FitsLayer inputs.length weights biases) : ∃ neurons : List (List Statement),
      layer inputs (neuronNames target isLast place weights) (columns weights) biases
        (network.activation isLast) = neurons.flatten ∧
      neurons.length = width weights ∧
      ∀ neuron < width weights, ∃ own bias, neurons[neuron]? = some own ∧
        biases[neuron]? = some bias ∧
        IsNeuron (neuronName target isLast place neuron) inputs
          (fun input => weights[input]?.bind (·[neuron]?)) bias (network.activation isLast)
          own := by
  refine ⟨_, List.flatMap_def, ?_, fun neuron hlt => ?_⟩
  · simp [neuronNames, columns, h.biases]
  · have hbias : neuron < biases.length := h.biases ▸ hlt
    have hlength : (column weights neuron).length = inputs.length := by
      rw [column_eq_map h.row hlt, List.length_map, h.rows]
    have hsum := Expr.isWeightedSum_weightedSum hlength
    simp only [getElem?_column h.row hlt] at hsum
    refine ⟨neuronStatements (neuronName target isLast place neuron) inputs (column weights neuron)
      biases[neuron] (network.activation isLast), biases[neuron], ?_, ?_, _, hsum, rfl⟩
    · simp [neuronNames, columns, hlt, h.biases]
    · exact List.getElem?_eq_getElem hbias

theorem hasLayers_of_ok {layers : List (List (List Float) × List Float)}
    (h : layerStatements network target place inputs layers = .ok statements) :
    HasLayers network target place inputs layers statements := by
  induction layers generalizing place inputs statements with
  | nil =>
    cases h
    rfl
  | cons first rest ih =>
    obtain ⟨weights, biases⟩ := first
    obtain ⟨hfits, -, later, hlater, rfl⟩ := layerStatements_cons_eq_ok_iff.mp h
    obtain ⟨neurons, hlayer, hlength, hneurons⟩ :=
      exists_neurons_of_fitsLayer network target rest.isEmpty hfits
    exact ⟨neurons, later, by rw [hlayer], hlength, hneurons, ih hlater⟩

end

/-- Supported activations, and matrices that chain from the features to one neuron. -/
structure Fits (network : Perceptron) (features : Nat) : Prop where
  hidden : ∀ name, network.hidden ≠ .unsupported name
  output : ∀ name, network.output ≠ .unsupported name
  layers : network.weights ≠ []
  biases : network.biases.length = network.weights.length
  nonempty : 0 < features
  inputs : ∀ weights ∈ network.weights.head?, weights.length = features
  chained : network.weights.IsChain fun before after => after.length = width before
  rows : ∀ weights ∈ network.weights, ∀ row ∈ weights, row ≠ [] ∧ row.length = width weights
  neurons : ∀ layer ∈ network.weights.zip network.biases, layer.2.length = width layer.1
  last : ∀ weights ∈ network.weights.getLast?, width weights = 1

section
variable {network : Perceptron} {features : List String} {target : String} {offset : Option Float}
  {rule : Rule}

theorem fits_iff_layersFit {inputs : Nat} : network.Fits inputs ↔
    (∀ name, network.hidden ≠ .unsupported name) ∧ (∀ name, network.output ≠ .unsupported name) ∧
      network.weights ≠ [] ∧ network.biases.length = network.weights.length ∧
      LayersFit inputs (network.weights.zip network.biases) := by
  have hlayers (hne : network.weights ≠ [])
      (hlength : network.biases.length = network.weights.length) :
      LayersFit inputs (network.weights.zip network.biases) ↔ 0 < inputs ∧
        (∀ weights ∈ network.weights.head?, weights.length = inputs) ∧
        network.weights.IsChain (fun before after => after.length = width before) ∧
        (∀ weights ∈ network.weights, ∀ row ∈ weights, row ≠ [] ∧ row.length = width weights) ∧
        (∀ layer ∈ network.weights.zip network.biases, layer.2.length = width layer.1) ∧
        ∀ weights ∈ network.weights.getLast?, width weights = 1 := by
    have hzip : network.weights.zip network.biases ≠ [] := by
      simpa [hlength, ← List.length_pos_iff] using hne
    have hfst : (network.weights.zip network.biases).map (·.1) = network.weights :=
      List.map_fst_zip hlength.ge
    have hiff := layersFit_iff inputs hzip
    generalize network.weights.zip network.biases = layers at hfst hiff ⊢
    rw [hiff, ← hfst]
    simp [List.isChain_map]
  constructor
  · rintro ⟨hhidden, houtput, hne, hlength, hfeatures, hinputs, hchained, hrows, hneurons, hlast⟩
    exact ⟨hhidden, houtput, hne, hlength, (hlayers hne hlength).mpr
      ⟨hfeatures, hinputs, hchained, hrows, hneurons, hlast⟩⟩
  · rintro ⟨hhidden, houtput, hne, hlength, hfit⟩
    obtain ⟨hfeatures, hinputs, hchained, hrows, hneurons, hlast⟩ := (hlayers hne hlength).mp hfit
    exact ⟨hhidden, houtput, hne, hlength, hfeatures, hinputs, hchained, hrows, hneurons, hlast⟩

theorem unroll_eq_ok_iff : network.unroll features target offset = .ok rule ↔
    (∀ name, network.hidden ≠ .unsupported name) ∧ (∀ name, network.output ≠ .unsupported name) ∧
      network.weights ≠ [] ∧ network.biases.length = network.weights.length ∧
      ∃ statements, layerStatements network target 0 features
        (network.weights.zip network.biases) = .ok statements ∧
        rule = .sequence (statements ++ (offset.map (Statement.addConstant target)).toList) := by
  unfold unroll
  rw [Activation.require_bind_eq_ok_iff, Activation.require_bind_eq_ok_iff]
  refine and_congr_right fun _ => and_congr_right fun _ => ?_
  dsimp only
  split
  · rename_i hzero
    have hnil : network.weights = [] := List.eq_nil_of_length_eq_zero hzero
    exact iff_of_false (fun h => nomatch h) fun h => h.1 hnil
  · rename_i hlayers
    have hne : network.weights ≠ [] := fun h => hlayers (by rw [h, List.length_nil])
    show (expectCount _ _ _ >>= _) = _ ↔ _
    rw [expectCount_bind_eq_ok_iff, bind_eq_ok_iff, and_iff_right hne]
    refine and_congr_right fun _ => exists_congr fun statements => and_congr_right fun _ => ?_
    cases offset with
    | none | some _ => exact ⟨fun h => (Except.ok.inj h).symm, fun h => congrArg _ h.symm⟩

theorem exists_unroll_iff (target : String) (offset : Option Float) :
    (∃ rule, network.unroll features target offset = .ok rule) ↔ network.Fits features.length := by
  rw [fits_iff_layersFit, ← exists_layerStatements_iff network target 0]
  simp only [unroll_eq_ok_iff]
  constructor
  · rintro ⟨_, hhidden, houtput, hne, hlength, statements, hstatements, -⟩
    exact ⟨hhidden, houtput, hne, hlength, statements, hstatements⟩
  · rintro ⟨hhidden, houtput, hne, hlength, statements, hstatements⟩
    exact ⟨_, hhidden, houtput, hne, hlength, statements, hstatements, rfl⟩

end

end Perceptron

-- ---------------------------------------------------------------------------
-- Linear models and scalers
-- ---------------------------------------------------------------------------

variable {features : List String} {target : String}

theorem LinearModel.unroll_eq_ok_iff {model : LinearModel} {rule : Rule} :
    model.unroll features target = .ok rule ↔ model.weights.length = features.length ∧
      rule = .sequence (Statement.linear target features model.weights model.intercept) := by
  unfold LinearModel.unroll
  rw [expectCount_bind_eq_ok_iff]
  exact and_congr_right fun _ => ⟨fun h => (Except.ok.inj h).symm, fun h => congrArg _ h.symm⟩

theorem LinearModel.isNeuron_linear {model : LinearModel}
    (h : model.weights.length = features.length) :
    IsNeuron target features (model.weights[·]?) model.intercept .identity
      (Statement.linear target features model.weights model.intercept) :=
  ⟨_, Expr.isWeightedSum_weightedSum h, rfl⟩

namespace Scaler

/-- A value for each feature in each array that there is. -/
structure Fits (scaler : Scaler) (features : Nat) : Prop where
  mean : ∀ values ∈ scaler.mean, values.length = features
  scale : ∀ values ∈ scaler.scale, values.length = features

/-- One assignment for each feature, in order and with its own mean and scale. Without the array a
mean is zero and a scale one. -/
def HasScaled (scaler : Scaler) (features : List String) (statements : List Statement) : Prop :=
  statements.length = features.length ∧
    ∀ (place : Nat) feature, features[place]? = some feature → ∃ mean scale,
      scaler.mean.elim (some 0) (·[place]?) = some mean ∧
      scaler.scale.elim (some 1) (·[place]?) = some scale ∧
      statements[place]? = some (statement feature mean scale)

variable {scaler : Scaler} {e : Unrolled}

theorem expectValues_bind_eq_ok_iff {α : Type} {what : String} {count : Nat}
    {values : Option (List Float)} {f : Unit → Except UnrollError α} {a : α} :
    (expectValues what count values >>= f) = .ok a ↔
      (∀ given ∈ values, given.length = count) ∧ f () = .ok a := by
  cases values with
  | none => exact ⟨fun h => ⟨fun _ h => (nomatch h), h⟩, fun h => h.2⟩
  | some given =>
    rw [expectValues, expectCount_bind_eq_ok_iff]
    simp

/-- The means or the scales of the features, or the same value for all of them. -/
def valuesOr (default : Float) (features : List String) (values : Option (List Float)) :
    List Float :=
  values.getD (features.map fun _ => default)

theorem unroll_eq_ok_iff : scaler.unroll features = .ok e ↔ scaler.Fits features.length ∧
    e = ⟨features.map scaledName, .sequence (statements features
      (valuesOr 0 features scaler.mean) (valuesOr 1 features scaler.scale))⟩ := by
  unfold unroll
  rw [expectValues_bind_eq_ok_iff, expectValues_bind_eq_ok_iff]
  constructor
  · rintro ⟨hmean, hscale, h⟩
    exact ⟨⟨hmean, hscale⟩, (Except.ok.inj h).symm⟩
  · rintro ⟨⟨hmean, hscale⟩, rfl⟩
    exact ⟨hmean, hscale, rfl⟩

theorem length_valuesOr (default : Float) {values : Option (List Float)}
    (h : ∀ given ∈ values, given.length = features.length) :
    (valuesOr default features values).length = features.length := by
  cases values with
  | none => simp [valuesOr]
  | some given => exact h given rfl

theorem getElem?_valuesOr {default : Float} {values : Option (List Float)} {place : Nat}
    (h : place < features.length) :
    (valuesOr default features values)[place]? =
      values.elim (some default) (·[place]?) := by
  cases values with
  | none => simp [valuesOr, h]
  | some given => rfl

theorem hasScaled_of_fits (h : scaler.Fits features.length) :
    scaler.HasScaled features (statements features (valuesOr 0 features scaler.mean)
      (valuesOr 1 features scaler.scale)) := by
  have hmean := length_valuesOr 0 h.mean
  have hscale := length_valuesOr 1 h.scale
  refine ⟨by simp [statements, hmean, hscale], fun place feature hfeature => ?_⟩
  obtain ⟨hlt, rfl⟩ := List.getElem?_eq_some_iff.mp hfeature
  refine ⟨(valuesOr 0 features scaler.mean)[place], (valuesOr 1 features scaler.scale)[place],
    ?_, ?_, ?_⟩
  · rw [← getElem?_valuesOr hlt, List.getElem?_eq_getElem]
  · rw [← getElem?_valuesOr hlt, List.getElem?_eq_getElem]
  · simp [statements, hlt, hmean, hscale]

end Scaler

namespace Classifier

variable {p : Params} {e : Unrolled}

theorem unroll_linear_eq_ok_iff {model : LinearModel} :
    (linear model).unroll p target features = .ok e ↔
      ∃ rule, model.unroll features target = .ok rule ∧ e = ⟨features, rule⟩ := by
  refine bind_eq_ok_iff.trans (exists_congr fun rule => and_congr_right fun _ => ?_)
  exact ⟨fun h => (Except.ok.inj h).symm, fun h => congrArg _ h.symm⟩

theorem unroll_perceptron_eq_ok_iff {network : Perceptron} :
    (perceptron network).unroll p target features = .ok e ↔
      ∃ rule, network.unroll features target p.outputOffset = .ok rule ∧ e = ⟨features, rule⟩ := by
  refine bind_eq_ok_iff.trans (exists_congr fun rule => and_congr_right fun _ => ?_)
  exact ⟨fun h => (Except.ok.inj h).symm, fun h => congrArg _ h.symm⟩

end Classifier

end FairProgram
