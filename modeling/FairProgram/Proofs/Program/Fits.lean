import FairProgram.Proofs.Fit.Proper
import FairProgram.Proofs.Population.Fits
import FairProgram.Proofs.Program.Population
import Mathlib

/-!
# Fits in programs

The text of a fit spells `NaN` or `inf` exactly where one of its doubles is not finite
(`Fit.isFinite_numbers_iff`), so that fits of values whose deviation is finite are printed as
decimal numbers (`Fit.ofValues_proper`).
-/

namespace FairProgram

open Stats Double

/-- The letters of one text stand in a row in the other. -/
def Spells (text word : String) : Prop :=
  word.toList <:+: text.toList

variable {text other word : String}

-- ---------------------------------------------------------------------------
-- Words of literals
-- ---------------------------------------------------------------------------

theorem Spells.trans (h : Spells text other) (hword : Spells other word) : Spells text word :=
  List.IsInfix.trans hword h

theorem Spells.append_left (h : Spells text word) (front : String) :
    Spells (front ++ text) word := by
  rw [Spells, String.toList_append]
  exact List.IsInfix.trans h (List.suffix_append _ _).isInfix

theorem Spells.append_right (h : Spells text word) (back : String) :
    Spells (text ++ back) word := by
  rw [Spells, String.toList_append]
  exact List.IsInfix.trans h (List.prefix_append _ _).isInfix

theorem spells_self (text : String) : Spells text text :=
  List.infix_rfl

theorem infix_intercalate {part separator : List Char} :
    {parts : List (List Char)} → part ∈ parts → part <:+: separator.intercalate parts
  | [only], h => by
    rw [List.mem_singleton.mp h, List.intercalate_singleton]
  | first :: next :: rest, h => by
    rw [List.intercalate_cons_cons, List.append_assoc]
    obtain rfl | h := List.mem_cons.mp h
    · exact (List.prefix_append _ _).isInfix
    · exact (infix_intercalate h).trans
        ((List.suffix_append _ _).trans (List.suffix_append _ _)).isInfix

theorem spells_intercalate {texts : List String} (h : text ∈ texts) (separator : String) :
    Spells (String.intercalate separator texts) text := by
  rw [Spells, String.toList_intercalate]
  exact infix_intercalate (List.mem_map_of_mem h)

theorem Decimal.literal_spells {x : Float} (h : x.isFinite = false) (places : Nat) :
    Spells (literal x places) "NaN" ∨ Spells (literal x places) "inf" := by
  have hwords : ∀ word ∈ ["NaN", "-inf", "inf"], Spells word "NaN" ∨ Spells word "inf" := by
    unfold Spells
    decide
  exact hwords _ (literal_of_not_isFinite h places)

theorem Decimal.not_mem_literal {x : Float} (h : x.isFinite = true) (places : Nat) {c : Char}
    (hdigit : c.isDigit = false) (hsign : c ≠ '-') (hpoint : c ≠ '.') :
    c ∉ (literal x places).toList := fun hc => by
  obtain hc | hc | hc := mem_literal_of_isFinite h hc
  · simp [hdigit] at hc
  · exact hsign hc
  · exact hpoint hc

-- ---------------------------------------------------------------------------
-- Words of fits
-- ---------------------------------------------------------------------------

theorem StepFit.bucketText_spells (places fitPlaces : Nat) (lower upper : Float) (units : Nat) :
    Spells (bucketText places fitPlaces lower upper units) (Decimal.literal lower places) ∧
      Spells (bucketText places fitPlaces lower upper units) (Decimal.literal upper places) := by
  have hlower := (spells_self (Decimal.literal lower places)).append_left "("
  have hupper := (spells_self (Decimal.literal upper places)).append_left
    ("(" ++ Decimal.literal lower places ++ ", ")
  exact ⟨((((hlower.append_right _).append_right _).append_right _).append_right _).append_right _,
    ((hupper.append_right _).append_right _).append_right _⟩

/-- There is a bucket next to every edge. -/
theorem StepFit.exists_bucketText {places fitPlaces : Nat} {edge : Float} :
    (edges : List Float) → (units : List Nat) → edges.length = units.length + 1 → units ≠ [] →
    edge ∈ edges → ∃ text ∈ bucketTexts places fitPlaces edges units,
      Spells text (Decimal.literal edge places)
  | lower :: upper :: edges, unit :: units, hlength, _, hedge => by
    obtain ⟨hlower, hupper⟩ := bucketText_spells places fitPlaces lower upper unit
    obtain rfl | hedge := List.mem_cons.mp hedge
    · exact ⟨_, List.mem_cons_self, hlower⟩
    cases units with
    | nil =>
      obtain rfl : edges = [] := by simpa using hlength
      exact ⟨_, List.mem_cons_self, List.mem_singleton.mp hedge ▸ hupper⟩
    | cons next units =>
      obtain ⟨text, htext, hspells⟩ := exists_bucketText (upper :: edges) (next :: units)
        (by simpa using hlength) (List.cons_ne_nil _ _) hedge
      exact ⟨text, List.mem_cons_of_mem _ htext, hspells⟩
  | [_], [], _, hne, _ | _ :: _ :: _, [], _, hne, _ => absurd rfl hne

theorem Fit.render_spells {fit : Fit} {places : Nat} {x : Float} (h : x ∈ fit.numbers) :
    Spells (fit.render places) (Decimal.literal x places) := by
  cases fit with
  | gaussian mean deviation =>
    have hmean := (spells_self (Decimal.literal mean places)).append_left "("
    have hdeviation := (spells_self (Decimal.literal deviation places)).append_left
      ("(" ++ Decimal.literal mean places ++ ", ")
    obtain rfl | rfl : x = mean ∨ x = deviation := by simpa [numbers] using h
    · exact (((hmean.append_right _).append_right _).append_right _).append_left _
    · exact (hdeviation.append_right _).append_left _
  | step s =>
    obtain ⟨text, htext, hspells⟩ :=
      StepFit.exists_bucketText s.edges s.units s.length_edges s.units_ne_nil h
    exact ((((spells_intercalate htext ", ").append_left "([").append_right "])").append_left
      "step").trans hspells

/-- A fit is printed in decimal numbers unless one of its doubles is not finite. -/
theorem Fit.isFinite_numbers_iff (fit : Fit) (places : Nat) :
    (∀ x ∈ fit.numbers, x.isFinite = true) ↔
      ¬ Spells (fit.render places) "NaN" ∧ ¬ Spells (fit.render places) "inf" := by
  constructor
  · intro h
    have hletter {c : Char} (hc : c = 'N' ∨ c = 'f') : c ∉ (fit.render places).toList := by
      have hdigit : c.isDigit = false ∧ c ≠ '-' ∧ c ≠ '.' ∧
          c ∉ "gaussian step([, ])".toList := by
        obtain rfl | rfl := hc <;> decide
      refine not_mem_render hdigit.2.2.2 ?_ fun x hx =>
        Decimal.not_mem_literal (h x hx) places hdigit.1 hdigit.2.1 hdigit.2.2.1
      intro units fitPlaces hunits
      obtain hunits | rfl := Decimal.mem_unitsText hunits
      · simp [hdigit.1] at hunits
      · exact hdigit.2.2.1 rfl
    exact ⟨fun hspells => hletter (.inl rfl) (hspells.mem (by decide)),
      fun hspells => hletter (.inr rfl) (hspells.mem (by decide))⟩
  · rintro ⟨hnan, hinf⟩ x hx
    by_contra hn
    obtain hspells | hspells := Decimal.literal_spells (Bool.eq_false_iff.mpr hn) places
    · exact hnan ((render_spells hx).trans hspells)
    · exact hinf ((render_spells hx).trans hspells)

-- ---------------------------------------------------------------------------
-- Fits of values
-- ---------------------------------------------------------------------------

section
variable {values : List Float} {p : Params}

theorem Fit.IsProper.decimal {fit : Fit} (h : fit.IsProper) (places : Nat) :
    ¬ Spells (fit.render places) "NaN" ∧ ¬ Spells (fit.render places) "inf" := by
  rw [← isFinite_numbers_iff]
  cases fit with
  | gaussian mean deviation => simp [numbers, h.1, h.2.1]
  | step s => exact h

/-- Finite values have a fit. It is proper if their deviation is finite, or else if it is a step fit
of finite width, and whether it is shows in its text. Values up to `2 ^ 431` have a proper fit, and
values whose mean overflows have none. -/
theorem Fit.ofValues_proper (hne : values ≠ []) (hf : ∀ v ∈ values, v.isFinite = true)
    (hrows : values.length ≤ Whole.maxWord) (hfew : p.maxStepBuckets ≤ 2 ^ 50) :
    ∃ fit, ofValues values p = .ok fit ∧
      (fit.IsProper ↔ (deviation values).isFinite = true ∨
        (∃ step, fit = .step step) ∧ (width values).isFinite = true) ∧
      (fit.IsProper ↔ ¬ Spells (fit.render p.decimalPlaces) "NaN" ∧
        ¬ Spells (fit.render p.decimalPlaces) "inf") ∧
      ((∀ v ∈ values, |value v| ≤ 2 ^ (431 : ℤ)) → fit.IsProper) ∧
      ((Stats.mean values).isFinite = false → ¬ fit.IsProper) := by
  obtain ⟨fit, hfit, hpos, hproper⟩ := isProper_ofValues_iff hne hf hfew
  refine ⟨fit, hfit, hproper, ?_, fun h => hproper.mpr (.inl (isFinite_deviation hne hrows hf h)),
    fun hmean => ?_⟩
  · rw [← isFinite_numbers_iff]
    cases fit with
    | gaussian mean deviation => simp [IsProper, numbers, hpos mean deviation rfl]
    | step s => rfl
  · have hnormal := ofValues_of_mean_infinite hne hrows hf hmean p
    obtain rfl := Except.ok.inj (hfit.symm.trans hnormal)
    exact fun h => Bool.eq_false_iff.mp hmean h.1

/-- Values at the bound, to either side of zero. -/
def farOut : List Float :=
  [Float.ofNat (2 ^ 431), -Float.ofNat (2 ^ 431), 0]

theorem Fit.ofValues_proper_farOut : farOut ≠ [] ∧ (∀ v ∈ farOut, v.isFinite = true) ∧
    farOut.length ≤ Whole.maxWord ∧ ({} : Params).maxStepBuckets ≤ 2 ^ 50 ∧
    (∀ v ∈ farOut, |value v| ≤ 2 ^ (431 : ℤ)) ∧
    ∃ fit, ofValues farOut {} = .ok fit ∧ fit.IsProper ∧
      ¬ Spells (fit.render ({} : Params).decimalPlaces) "NaN" ∧
      ¬ Spells (fit.render ({} : Params).decimalPlaces) "inf" := by
  have hbound : (Float.ofNat (2 ^ 431)).isFinite = true :=
    isFinite_ofNat (le_refl (2 ^ 431)) (by norm_num)
  have hvalue : value (Float.ofNat (2 ^ 431)) = 2 ^ (431 : ℤ) := by
    rw [(ofNat_rounds _).value_eq hbound, Nat.cast_pow, Nat.cast_two, nearest_two_pow]
    exact (zpow_natCast 2 431).symm
  have hne : farOut ≠ [] := List.cons_ne_nil _ _
  have hrows : farOut.length ≤ Whole.maxWord := by decide
  have hfew : ({} : Params).maxStepBuckets ≤ 2 ^ 50 := by decide
  have hf : ∀ v ∈ farOut, v.isFinite = true := by
    simp only [farOut, List.forall_mem_cons, isFinite_neg, hbound, isFinite_zero, true_and]
    exact List.forall_mem_nil _
  have hle : ∀ v ∈ farOut, |value v| ≤ 2 ^ (431 : ℤ) := by
    have habs : |(2 : ℚ) ^ (431 : ℤ)| = 2 ^ (431 : ℤ) := abs_of_pos (by positivity)
    simp only [farOut, List.forall_mem_cons, value_neg, hvalue, value_zero, abs_neg, habs, abs_zero,
      le_rfl, true_and]
    exact ⟨by positivity, List.forall_mem_nil _⟩
  obtain ⟨fit, hfit, -, htext, hproper, -⟩ := ofValues_proper hne hf hrows hfew
  exact ⟨hne, hf, hrows, hfew, hle, fit, hfit, hproper hle, htext.mp (hproper hle)⟩

def overflowing : List Float :=
  [8e307, 8e307, 8e307]

/-- The sum of three equal values overflows, and the normal fit of infinite mean is chosen although
they have no spread. -/
theorem Fit.exists_infinite_fit : ({} : Params).validate = .ok () ∧ overflowing ≠ [] ∧
    (∀ v ∈ overflowing, v.isFinite = true) ∧
    ∃ fit, ofValues overflowing {} = .ok fit ∧ ¬ fit.IsProper ∧
      fit.render ({} : Params).decimalPlaces = "gaussian(inf, inf)" := by
  have hne : overflowing ≠ [] := List.cons_ne_nil _ _
  have hf : ∀ v ∈ overflowing, v.isFinite = true := List.all_eq_true.mp (by decide +kernel)
  have hmean : (Stats.mean overflowing).isFinite = false := by decide +kernel
  refine ⟨rfl, hne, hf, _, ofValues_of_mean_infinite hne (by decide) hf hmean {}, ?_, ?_⟩
  · exact fun h => Bool.eq_false_iff.mp hmean h.1
  · decide +kernel

/-- The fits of a population whose values are up to `2 ^ 431` are proper and print in decimal
numbers. -/
theorem Population.compile_proper {d : Dataset} {m : PopulationModel} {path : List (Nat × Range)}
    {node : Node} (h : compile p d = .ok m) (hr : m.Reaches path node)
    (hrows : d.rows ≤ Whole.maxWord) (hfew : p.maxStepBuckets ≤ 2 ^ 50)
    (hbound : ∀ column row v, d.cell? column row = some v → |value v| ≤ 2 ^ (431 : ℤ)) :
    node.fit.IsProper ∧ ¬ Spells (node.fit.render p.decimalPlaces) "NaN" ∧
      ¬ Spells (node.fit.render p.decimalPlaces) "inf" := by
  obtain ⟨-, hpos, hd, rfl⟩ := compile_eq_ok_iff.mp h
  obtain ⟨hfit, -⟩ := Node.measured_iff.mp (hr.measured (forest_measured hd hpos))
  set values := d.gather node.column (d.rowsWithin path) with hvalues
  have hne : values ≠ [] := by
    rintro hnil
    rw [hnil] at hfit
    cases hfit
  have hf : ∀ v ∈ values, v.isFinite = true := fun v hv => hd.of_mem_gather hv
  rw [Dataset.gather_eq] at hvalues
  have hlength : values.length ≤ Whole.maxWord := by
    rw [hvalues]
    calc _ ≤ (d.rowsWithin path).length := List.length_filterMap_le _ _
      _ ≤ d.allRows.length := List.length_filter_le _ _
      _ = d.rows := List.length_range
      _ ≤ Whole.maxWord := hrows
  have hle : ∀ v ∈ values, |value v| ≤ 2 ^ (431 : ℤ) := by
    intro v hv
    rw [hvalues] at hv
    obtain ⟨row, -, hcell⟩ := List.mem_filterMap.mp hv
    exact hbound _ row v hcell
  obtain ⟨fit, hfit', -, hproper⟩ := Fit.isProper_ofValues_iff hne hf hfew
  obtain rfl := Except.ok.inj (hfit.symm.trans hfit')
  have hfinal : node.fit.IsProper := hproper.mpr (.inl (isFinite_deviation hne hlength hf hle))
  exact ⟨hfinal, hfinal.decimal p.decimalPlaces⟩

end

end FairProgram
