import FairProgram.Proofs.Classifier.Shapes
import FairProgram.Proofs.Rule.Execution
import Mathlib

/-!
# The forward pass of a perceptron

Each neuron is the activation of a weighted sum of the outputs before it, with a bias (`forward`).
Unrolled, a neuron is a variable that is assigned its sum, then the sum with the bias, then its
activation. The rules leave the output of the last layer in the target, over any values, unless a
feature has the name of a neuron (`Classifier.unroll_forward`).
-/

namespace FairProgram

section
variable {α : Type} (arithmetic : Arithmetic α)

/-- The values added up from the left; zero without any. -/
def Arithmetic.sum : List α → α
  | [] => arithmetic.int 0
  | first :: rest => rest.foldl (arithmetic.binary .add) first

/-- Negative values cut to zero, `1 / (1 + e ** -value)`, or the value itself. -/
def Activation.apply : Activation → α → α
  | .relu, value => if arithmetic.less value (arithmetic.int 0) then arithmetic.int 0 else value
  | .logistic, value =>
    arithmetic.binary .div (arithmetic.int 1) (arithmetic.binary .add (arithmetic.int 1)
      (arithmetic.binary .pow arithmetic.euler (arithmetic.neg value)))
  | .identity, value | .unsupported _, value => value

namespace Perceptron

/-- The inputs, each times its weight, added up from the left, with a bias and an activation. -/
def neuronOutput (inputs : List α) (weights : List Float) (bias : Float)
    (activation : Activation) : α :=
  let terms := inputs.zipWith (fun input weight =>
    arithmetic.binary .mul input (arithmetic.real weight)) weights
  activation.apply arithmetic
    (arithmetic.binary .add (arithmetic.sum terms) (arithmetic.real bias))

/-- The output of each neuron of a layer, whose weights are a column of the matrix. -/
def layerOutput (inputs : List α) (weights : List (List Float)) (biases : List Float)
    (activation : Activation) : List α :=
  biases.zipIdx.map fun (bias, neuron) =>
    neuronOutput arithmetic inputs (weights.map (·.getD neuron 0)) bias activation

/-- The outputs of the last of the layers, each fed with the outputs of the one before. -/
def forward (network : Perceptron) : List α → List (List (List Float) × List Float) → List α
  | inputs, [] => inputs
  | inputs, (weights, biases) :: rest =>
    forward network
      (layerOutput arithmetic inputs weights biases (network.activation rest.isEmpty)) rest

end Perceptron

/-- The values of variables after statements. -/
def after (store : String → α) (statements : List Statement) : String → α :=
  assigned store (runStatements arithmetic store statements)

variable {arithmetic} {store : String → α} {name : String}

theorem assigned_append (made later : List (String × α)) :
    assigned store (made ++ later) = assigned (assigned store made) later :=
  List.foldl_append

@[simp] theorem after_nil : after arithmetic store [] = store := by
  simp [after, runStatements, assigned]

theorem after_cons (statement : Statement) (rest : List Statement) :
    after arithmetic store (statement :: rest) =
      after arithmetic (after arithmetic store [statement]) rest := by
  cases statement with
  | assign name value => rfl
  | rule rule => simp [after, runStatements, assigned_append]

theorem after_append (first second : List Statement) :
    after arithmetic store (first ++ second) =
      after arithmetic (after arithmetic store first) second := by
  induction first generalizing store with
  | nil => simp
  | cons statement rest ih => rw [List.cons_append, after_cons, ih, ← after_cons]

@[simp] theorem after_assign (value : Expr) : after arithmetic store [.assign name value] =
    Function.update store name (value.eval arithmetic store) := by
  simp [after, runStatements, assigned]

-- ---------------------------------------------------------------------------
-- Neurons
-- ---------------------------------------------------------------------------

theorem Expr.eval_sum (terms : List Expr) :
    (sum terms).eval arithmetic store = arithmetic.sum (terms.map (eval arithmetic store)) := by
  have hfold (rest : List Expr) (first : Expr) :
      (rest.foldl (.binary .add) first).eval arithmetic store =
        (rest.map (eval arithmetic store)).foldl (arithmetic.binary .add)
          (first.eval arithmetic store) := by
    induction rest generalizing first with
    | nil => rfl
    | cons next rest ih => exact ih _
  cases terms with
  | nil => rfl
  | cons first rest => exact hfold rest first

theorem Expr.eval_weightedSum (inputs : List String) (weights : List Float) :
    (weightedSum inputs weights).eval arithmetic store =
      arithmetic.sum ((inputs.map store).zipWith
        (fun input weight => arithmetic.binary .mul input (arithmetic.real weight)) weights) := by
  rw [weightedSum, eval_sum, List.map_map, List.zipWith_map_left, List.zip, List.map_zipWith]
  rfl

@[simp] theorem Statement.after_addConstant (value : Float) :
    after arithmetic store [addConstant name value] = Function.update store name
      (arithmetic.binary .add (store name) (arithmetic.real value)) :=
  after_assign _

theorem Activation.after_statements (activation : Activation) :
    after arithmetic store (activation.statements name) =
      Function.update store name (activation.apply arithmetic (store name)) := by
  cases activation with
  | relu =>
    cases hless : arithmetic.less (store name) (arithmetic.int 0) with
    | true =>
      simp [after, statements, runStatements, Rule.run, Condition.holds, Expr.eval, apply, hless,
        assigned]
    | false =>
      simp [after, statements, runStatements, Rule.run, Condition.holds, Expr.eval, apply, hless,
        assigned]
  | logistic => exact after_assign _
  | identity | unsupported => simp [statements, apply]

namespace Perceptron

theorem after_neuronStatements (inputs : List String) (weights : List Float) (bias : Float)
    (activation : Activation) :
    after arithmetic store (neuronStatements name inputs weights bias activation) =
      Function.update store name
        (neuronOutput arithmetic (inputs.map store) weights bias activation) := by
  rw [neuronStatements, Statement.linear, after_append, after_cons, after_assign,
    Statement.after_addConstant, Activation.after_statements, Expr.eval_weightedSum]
  simp [neuronOutput]

-- ---------------------------------------------------------------------------
-- Layers
-- ---------------------------------------------------------------------------

variable {inputs names : List String} {neurons : List (List Float)} {biases : List Float}
  {activation : Activation}

theorem after_layer_cons {weights : List Float} {bias : Float} :
    after arithmetic store (layer inputs (name :: names) (weights :: neurons) (bias :: biases)
      activation) =
    after arithmetic (Function.update store name
      (neuronOutput arithmetic (inputs.map store) weights bias activation))
        (layer inputs names neurons biases activation) := by
  rw [← after_neuronStatements, ← after_append]
  rfl

theorem after_layer_of_notMem (hn : name ∉ names) :
    after arithmetic store (layer inputs names neurons biases activation) name = store name := by
  induction names generalizing neurons biases store with
  | nil => simp [layer]
  | cons first names ih =>
    obtain ⟨hne, hn⟩ := List.ne_and_not_mem_of_not_mem_cons hn
    cases neurons with
    | nil => simp [layer]
    | cons weights neurons =>
      cases biases with
      | nil => simp [layer]
      | cons bias biases => rw [after_layer_cons, ih hn, Function.update_of_ne hne]

/-- Neurons that are not inputs of their layer see the inputs as they were before it. -/
theorem map_after_layer (hd : names.Nodup) (hi : names.Disjoint inputs)
    (hn : names.length = neurons.length) (hb : biases.length = neurons.length) :
    names.map (after arithmetic store (layer inputs names neurons biases activation)) =
      (neurons.zip biases).map fun (weights, bias) =>
        neuronOutput arithmetic (inputs.map store) weights bias activation := by
  induction names generalizing neurons biases store with
  | nil =>
    obtain rfl := List.eq_nil_of_length_eq_zero hn.symm
    rfl
  | cons first names ih =>
    obtain ⟨hfirst, hd⟩ := List.nodup_cons.mp hd
    obtain ⟨hinput, hi⟩ := List.disjoint_cons_left.mp hi
    match neurons, biases, hn, hb with
    | weights :: neurons, bias :: biases, hn, hb =>
      rw [after_layer_cons, List.map_cons, after_layer_of_notMem hfirst,
        ih hd hi (Nat.succ.inj hn) (Nat.succ.inj hb), Function.update_self]
      have hsame (value : α) : inputs.map (Function.update store first value) = inputs.map store :=
        List.map_congr_left fun input hmem =>
          Function.update_of_ne (ne_of_mem_of_not_mem hmem hinput) _ _
      rw [hsame]
      rfl

theorem layerOutput_eq {weights : List (List Float)} {inputs : Nat}
    (h : FitsLayer inputs weights biases) (values : List α) :
    layerOutput arithmetic values weights biases activation =
      ((columns weights).zip biases).map fun (weights, bias) =>
        neuronOutput arithmetic values weights bias activation := by
  refine List.ext_getElem (by simp [layerOutput, columns, h.biases]) fun neuron hn _ => ?_
  have hn : neuron < width weights := by simpa [layerOutput, h.biases] using hn
  simp [layerOutput, columns, column_eq_map h.row hn]

theorem hiddenName_inj {place neuron place' neuron' : Nat} :
    hiddenName place neuron = hiddenName place' neuron' ↔ place = place' ∧ neuron = neuron' := by
  constructor
  · intro h
    have hdigits : Nat.toDigits 10 place ++ '_' :: Nat.toDigits 10 neuron =
        Nat.toDigits 10 place' ++ '_' :: Nat.toDigits 10 neuron' := by
      simpa [hiddenName, Nat.toList_repr] using congrArg String.toList h
    obtain ⟨hplace, -, hneuron⟩ := (List.append_cons_inj_of_notMem Nat.underscore_not_in_toDigits
      Nat.underscore_not_in_toDigits).mp hdigits
    exact ⟨Nat.repr_inj.mp (by simp [String.ext_iff, Nat.toList_repr, hplace]),
      Nat.repr_inj.mp (by simp [String.ext_iff, Nat.toList_repr, hneuron])⟩
  · rintro ⟨rfl, rfl⟩
    rfl

/-- The neurons of a layer that feeds another are the names of its place. -/
theorem mem_neuronNames {target : String} {place : Nat} {weights : List (List Float)} :
    name ∈ neuronNames target false place weights ↔
      ∃ neuron < width weights, hiddenName place neuron = name := by
  simp [neuronNames, neuronName, hiddenName]

theorem nodup_neuronNames {target : String} {place : Nat} {weights : List (List Float)} :
    (neuronNames target false place weights).Nodup :=
  List.nodup_range.map fun _ _ h => (hiddenName_inj.mp h).2

variable {network : Perceptron} {target : String} {place : Nat}
  {layers : List (List (List Float) × List Float)} {statements : List Statement}

/-- The neurons of one layer hold its outputs. -/
theorem map_after_neuronNames (store : String → α) (activation : Activation)
    {weights : List (List Float)} {isLast : Bool} (h : FitsLayer inputs.length weights biases)
    (hd : (neuronNames target isLast place weights).Nodup)
    (hi : (neuronNames target isLast place weights).Disjoint inputs) :
    (neuronNames target isLast place weights).map (after arithmetic store (layer inputs
      (neuronNames target isLast place weights) (columns weights) biases activation)) =
        layerOutput arithmetic (inputs.map store) weights biases activation := by
  have hcount : (columns weights).length = width weights := by simp [columns]
  rw [map_after_layer hd hi (by simp [neuronNames, hcount]) (by rw [h.biases, hcount]),
    layerOutput_eq h]

/-- Layers whose neurons are neither inputs nor the target leave their output in the target. -/
theorem forward_of_ok (hne : layers ≠ []) (ht : target ∉ inputs)
    (hi : ∀ later ≥ place, ∀ neuron, hiddenName later neuron ∉ inputs)
    (hidden : ∀ place neuron, hiddenName place neuron ≠ target)
    (h : layerStatements network target place inputs layers = .ok statements) :
    forward arithmetic network (inputs.map store) layers =
      [after arithmetic store statements target] := by
  induction layers generalizing place inputs statements store with
  | nil => exact absurd rfl hne
  | cons first rest ih =>
    obtain ⟨weights, biases⟩ := first
    obtain ⟨hfits, hlast, later, hlater, rfl⟩ := layerStatements_cons_eq_ok_iff.mp h
    rw [forward]
    cases rest with
    | nil =>
      cases hlater
      have hnames : neuronNames target true place weights = [target] := by
        simp [neuronNames, hlast rfl, neuronName]
      have hlayer : _ = layerOutput arithmetic _ _ _ _ :=
        map_after_neuronNames store (network.activation true) hfits
          (hnames ▸ List.nodup_singleton target) (hnames ▸ List.singleton_disjoint.mpr ht)
      rw [forward, List.append_nil, List.isEmpty_nil, ← hlayer, hnames]
      rfl
    | cons next rest =>
      have hdisjoint : (neuronNames target false place weights).Disjoint inputs := by
        intro name hname
        obtain ⟨neuron, -, rfl⟩ := mem_neuronNames.mp hname
        exact hi place le_rfl neuron
      have htarget : target ∉ neuronNames target false place weights := by
        intro hname
        obtain ⟨neuron, -, hneuron⟩ := mem_neuronNames.mp hname
        exact hidden place neuron hneuron
      have hlater' (after : Nat) (hafter : after ≥ place + 1) (neuron : Nat) :
          hiddenName after neuron ∉ neuronNames target false place weights := by
        intro hname
        obtain ⟨other, -, hother⟩ := mem_neuronNames.mp hname
        have := (hiddenName_inj.mp hother).1
        omega
      have hlayer : _ = layerOutput arithmetic _ _ _ _ :=
        map_after_neuronNames store (network.activation false) hfits nodup_neuronNames hdisjoint
      rw [after_append, ← ih (List.cons_ne_nil _ _) htarget hlater' hlater]
      exact congrArg (forward arithmetic network · (next :: rest)) hlayer.symm

end Perceptron

-- ---------------------------------------------------------------------------
-- Unrolled perceptrons
-- ---------------------------------------------------------------------------

/-- The rules of a perceptron leave in the target its forward pass, and the offset added to it where
there is one. -/
theorem Classifier.unroll_forward {p : Params} {target : String} {features : List String}
    {network : Perceptron} {e : Unrolled}
    (h : (Classifier.perceptron network).unroll p target features = .ok e)
    (hfeatures : ∀ place neuron, Perceptron.hiddenName place neuron ∉ features)
    (hidden : ∀ place neuron, Perceptron.hiddenName place neuron ≠ target)
    (ht : target ∉ features) (arithmetic : Arithmetic α) (store : String → α) :
    ∃ output, network.forward arithmetic (features.map store)
        (network.weights.zip network.biases) = [output] ∧
      assigned store (e.rules.run arithmetic store) target =
        p.outputOffset.elim output
          fun offset => arithmetic.binary .add output (arithmetic.real offset) := by
  obtain ⟨rule, hrule, rfl⟩ := unroll_perceptron_eq_ok_iff.mp h
  obtain ⟨-, -, hne, hlength, statements, hstatements, rfl⟩ :=
    Perceptron.unroll_eq_ok_iff.mp hrule
  have hlayers : network.weights.zip network.biases ≠ [] := by
    simpa [hlength, ← List.length_pos_iff] using hne
  refine ⟨_, Perceptron.forward_of_ok hlayers ht (fun place _ => hfeatures place) hidden
    hstatements, ?_⟩
  show after arithmetic store (statements ++ _) target = _
  rw [after_append]
  cases p.outputOffset with
  | none => rfl
  | some offset => simp

end

/-- Three features, a hidden layer of two neurons and an output. -/
def twoLayers : Perceptron :=
  ⟨[[[1, -1], [2, 0.5], [0, 3]], [[3], [4]]], [[0, 1], [2]], .relu, .logistic⟩

theorem Classifier.unroll_forward_twoLayers : "label" ∉ ["w", "x", "z"] ∧
    (∀ place neuron, Perceptron.hiddenName place neuron ∉ ["w", "x", "z"]) ∧
    (∀ place neuron, Perceptron.hiddenName place neuron ≠ "label") ∧
    ∃ e, (Classifier.perceptron twoLayers).unroll {} "label" ["w", "x", "z"] = .ok e ∧
      ∀ store : String → Float, ∃ output,
        twoLayers.forward Arithmetic.doubles [store "w", store "x", store "z"]
          [([[1, -1], [2, 0.5], [0, 3]], [0, 1]), ([[3], [4]], [2])] = [output] ∧
        assigned store (e.rules.run Arithmetic.doubles store) "label" = output + 0.5 := by
  have htarget : "label" ∉ ["w", "x", "z"] := by decide
  have hfeatures (place neuron : Nat) : Perceptron.hiddenName place neuron ∉ ["w", "x", "z"] := by
    simp [Perceptron.hiddenName, String.ext_iff]
  have hidden (place neuron : Nat) : Perceptron.hiddenName place neuron ≠ "label" := by
    simp [Perceptron.hiddenName, String.ext_iff]
  obtain ⟨e, h⟩ : ∃ e, (Classifier.perceptron twoLayers).unroll {} "label" ["w", "x", "z"] =
    .ok e := ⟨_, rfl⟩
  exact ⟨htarget, hfeatures, hidden, e, h, fun store =>
    Classifier.unroll_forward h hfeatures hidden htarget Arithmetic.doubles store⟩

end FairProgram
