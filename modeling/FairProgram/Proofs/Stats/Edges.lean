import FairProgram.Proofs.Stats.Moments
import FairProgram.Stats.Histogram
import Mathlib

/-!
# Edges without overflow

Equal-width bins divide the span of their values. Their edges are finite if the width of the span is
and only then (`isFinite_evenlySpaced_iff`): the errors of all operations up to an edge are less
than the last bin. The width is finite wherever the deviation of the values is (`span_bounds`).
-/

namespace FairProgram.Stats

open Double Scalar

variable {values : List Float} {low high : Float} {bins i : Nat}

-- ---------------------------------------------------------------------------
-- Evenly spaced points
-- ---------------------------------------------------------------------------

/-- The last bin is wider than the errors of the width, of its quotient and of the multiple. -/
theorem nearest_multiple_le {q : ℚ} (hq : 1 ≤ q) (hi : i < bins) (hbins : bins ≤ 2 ^ 50) :
    nearest (nearest (nearest q / bins) * i) ≤ q := by
  have hu := roundoff_pos
  have hn : (0 : ℚ) < bins := by exact_mod_cast (Nat.zero_le i).trans_lt hi
  have hmost : (bins : ℚ) ≤ 2 ^ 50 := by exact_mod_cast hbins
  have hnormal {r : ℚ} (hr : 2 ^ (-50 : ℤ) ≤ r) : 2 ^ (-1022 : ℤ) ≤ r :=
    (zpow_le_zpow_right₀ one_le_two (by norm_num)).trans hr
  have hratio : (i : ℚ) / bins ≤ 1 - 2 ^ (-50 : ℤ) := by
    have hsucc : (i : ℚ) + 1 ≤ bins := by exact_mod_cast hi
    have hlast : (2 : ℚ) ^ (-50 : ℤ) * bins ≤ 1 := by
      norm_num
      linarith
    rw [div_le_iff₀ hn, sub_mul]
    linarith
  have hwidth : nearest q ≤ q * (1 + roundoff) := nearest_le (hnormal (le_trans (by norm_num) hq))
  have hbin : (2 : ℚ) ^ (-50 : ℤ) ≤ q * (1 + roundoff) / bins := by
    rw [le_div_iff₀ hn]
    norm_num
    nlinarith
  have hstep : nearest (nearest q / bins) ≤ q * (1 + roundoff) / bins * (1 + roundoff) :=
    (nearest_mono (div_le_div_of_nonneg_right hwidth hn.le)).trans (nearest_le (hnormal hbin))
  have hmultiple : nearest (nearest q / bins) * i ≤
      q * ((1 + roundoff) ^ 2 * (1 - 2 ^ (-50 : ℤ))) := by
    calc nearest (nearest q / bins) * i
        ≤ q * (1 + roundoff) / bins * (1 + roundoff) * i := by gcongr
      _ = q * (1 + roundoff) ^ 2 * (i / bins) := by ring
      _ ≤ q * (1 + roundoff) ^ 2 * (1 - 2 ^ (-50 : ℤ)) := by gcongr
      _ = q * ((1 + roundoff) ^ 2 * (1 - 2 ^ (-50 : ℤ))) := mul_assoc _ _ _
  have herror : (1 + roundoff) ^ 2 * (1 - 2 ^ (-50 : ℤ)) * (1 + roundoff) ≤ 1 := by
    norm_num [roundoff]
  have hhalf : (2 : ℚ) ^ (-50 : ℤ) ≤ (1 + roundoff) ^ 2 * (1 - 2 ^ (-50 : ℤ)) := by
    norm_num [roundoff]
  calc nearest (nearest (nearest q / bins) * i)
      ≤ nearest (q * ((1 + roundoff) ^ 2 * (1 - 2 ^ (-50 : ℤ)))) := nearest_mono hmultiple
    _ ≤ q * ((1 + roundoff) ^ 2 * (1 - 2 ^ (-50 : ℤ))) * (1 + roundoff) :=
      nearest_le (hnormal (hhalf.trans (le_mul_of_one_le_left (by norm_num [roundoff]) hq)))
    _ = q * ((1 + roundoff) ^ 2 * (1 - 2 ^ (-50 : ℤ)) * (1 + roundoff)) := mul_assoc _ _ _
    _ ≤ q := mul_le_of_le_one_right (zero_le_one.trans hq) herror

/-- The exact width bounds the multiples of the rounded bin width below the last edge. -/
theorem isFinite_add_mul (hlow : low.isFinite = true) (hhigh : high.isFinite = true)
    (hle : value low ≤ value high) (hwidth : (high - low).isFinite = true) (hi : i < bins)
    (hbins : bins ≤ 2 ^ 50) :
    (low + (high - low) / Float.ofNat bins * Float.ofNat i).isFinite = true := by
  obtain ⟨hn, hvn⟩ := value_ofNat (n := bins) (hbins.trans_lt (by norm_num))
  obtain ⟨hni, hvi⟩ := value_ofNat (n := i) (by omega)
  have hone : (1 : ℚ) ≤ bins := by exact_mod_cast Nat.one_le_of_lt hi
  have hexact := (sub_rounds hhigh hlow).value_eq hwidth
  set width := high - low
  set exact := value high - value low with hdef
  have hnonneg : 0 ≤ value width := hexact ▸ nearest_nonneg (sub_nonneg.mpr hle)
  have hdiv := div_rounds hwidth hn (by rw [hvn]; linarith)
  rw [hvn] at hdiv
  set step := width / Float.ofNat bins
  have hstepNonneg : 0 ≤ step := rounds_zero.le hdiv (by positivity)
  have hstepLe : step ≤ width := hdiv.le (rounds_value hwidth) (div_le_self hnonneg hone)
  have hstep := isFinite_of_between isFinite_zero hwidth hstepNonneg hstepLe
  have hmul := mul_rounds hstep hni
  rw [hvi] at hmul
  have hmulNonneg := mul_nonneg (value_nonneg hstep hstepNonneg) (Nat.cast_nonneg (α := ℚ) i)
  obtain hsmall | hlarge := le_total exact 1
  · -- A small width has small multiples.
    have hstepValue : value step ≤ 1 := by
      rw [le_iff_value hstep hwidth, hexact] at hstepLe
      exact hstepLe.trans ((nearest_mono hsmall).trans_eq (nearest_zpow (e := 0) (by norm_num)))
    have hmost : (i : ℚ) ≤ 2 ^ 50 := by exact_mod_cast hi.le.trans hbins
    have hproduct : |value step * i| ≤ 2 ^ (50 : ℤ) := by
      rw [abs_of_nonneg hmulNonneg]
      exact (mul_le_of_le_one_left (Nat.cast_nonneg i) hstepValue).trans hmost
    obtain ⟨hf, hv⟩ := hmul.abs_value_le (by norm_num) (by norm_num) hproduct
    exact isFinite_add_small hlow hf
      (hv.trans_lt (zpow_lt_zpow_right₀ one_lt_two (by norm_num)))
  · have hbound : nearest (value step * i) ≤ exact := by
      rw [hdiv.value_eq hstep, hexact]
      exact nearest_multiple_le hlarge hi hbins
    have hlt : exact < 2 ^ (1024 : ℤ) := by
      have := abs_value_lt width
      rw [hexact] at this
      exact (le_abs_self _).trans_lt (abs_lt_of_abs_nearest_lt (by norm_num) this)
    obtain ⟨hf, hv⟩ := hmul.of_lt
      (by rw [abs_of_nonneg (nearest_nonneg hmulNonneg)]; exact hbound.trans_lt hlt)
    have hadd := add_rounds hlow hf
    rw [hv] at hadd
    have hfrom : low ≤ _ := (rounds_value hlow).le hadd
      (le_add_of_nonneg_right (nearest_nonneg hmulNonneg))
    have hto : _ ≤ high := hadd.le (rounds_value hhigh) (by linarith)
    exact isFinite_of_between hlow hhigh hfrom hto

theorem isFinite_evenlySpaced_iff (hlow : low.isFinite = true) (hhigh : high.isFinite = true)
    (hle : value low ≤ value high) (hpos : 0 < bins) (hbins : bins ≤ 2 ^ 50) :
    (∀ edge ∈ evenlySpaced low high (bins + 1), edge.isFinite = true) ↔
      (high - low).isFinite = true := by
  obtain ⟨more, rfl⟩ := Nat.exists_eq_add_one.mpr hpos
  have hedges : evenlySpaced low high (more + 1 + 1) = (List.range (more + 1)).map
      (fun i => low + (high - low) / Float.ofNat (more + 1) * Float.ofNat i) ++ [high] := rfl
  rw [hedges, List.forall_mem_append, List.forall_mem_map, List.forall_mem_singleton]
  constructor
  · rintro ⟨hinner, -⟩
    have hfirst := hinner 0 (List.mem_range.mpr hpos)
    exact isFinite_of_div (isFinite_of_mul (isFinite_of_add hfirst).2).1
  · exact fun hwidth => ⟨fun i hi => isFinite_add_mul hlow hhigh hle hwidth (List.mem_range.mp hi)
      hbins, hhigh⟩

-- ---------------------------------------------------------------------------
-- Spans
-- ---------------------------------------------------------------------------

/-- A choice between values in turn comes to one of them, on the same side of the first. -/
theorem foldl_choice {op : Float → Float → Float} {rank : Float → ℚ}
    (hop : ∀ {a b}, a.isFinite = true → b.isFinite = true → (op a b = a ∨ op a b = b) ∧
      rank (op a b) ≤ rank a) {first : Float} {rest : List Float}
    (h : ∀ v ∈ first :: rest, v.isFinite = true) :
    rest.foldl op first ∈ first :: rest ∧ rank (rest.foldl op first) ≤ rank first := by
  induction rest generalizing first with
  | nil => exact ⟨List.mem_singleton.mpr rfl, le_rfl⟩
  | cons next rest ih =>
    obtain ⟨hfirst, hnext, hrest⟩ := by simpa only [List.forall_mem_cons] using h
    obtain ⟨hchosen, hle⟩ := hop hfirst hnext
    have hfinite : (op first next).isFinite = true := by
      obtain heq | heq := hchosen <;> rwa [heq]
    obtain ⟨hmem, hrank⟩ := ih (List.forall_mem_cons.mpr ⟨hfinite, hrest⟩)
    refine ⟨?_, hrank.trans hle⟩
    rw [List.foldl_cons]
    obtain heq | heq := hchosen <;> rw [heq] at hmem ⊢
    · exact List.mem_cons.mpr ((List.mem_cons.mp hmem).imp_right (List.mem_cons_of_mem _))
    · exact List.mem_cons_of_mem _ hmem

theorem least_spec {a b : Float} (ha : a.isFinite = true) (hb : b.isFinite = true) :
    (least a b = a ∨ least a b = b) ∧ value (least a b) ≤ value a := by
  have hself : (a == a) = true := beq_iff.mpr ⟨isNaN_of_isFinite ha, isNaN_of_isFinite ha, rfl⟩
  unfold least
  split
  · rename_i hlt
    exact ⟨.inr rfl, ((lt_iff_value hb ha).mp hlt).le⟩
  · exact ⟨.inl rfl, le_rfl⟩

theorem greatest_spec {a b : Float} (ha : a.isFinite = true) (hb : b.isFinite = true) :
    (greatest a b = a ∨ greatest a b = b) ∧ -value (greatest a b) ≤ -value a := by
  have hself : (a == a) = true := beq_iff.mpr ⟨isNaN_of_isFinite ha, isNaN_of_isFinite ha, rfl⟩
  unfold greatest
  split
  · rename_i hlt
    exact ⟨.inr rfl, neg_le_neg ((lt_iff_value ha hb).mp hlt).le⟩
  · exact ⟨.inl rfl, le_rfl⟩

theorem range?_bounds (hne : values ≠ []) (hf : ∀ v ∈ values, v.isFinite = true) :
    ∃ low high, range? values = some (low, high) ∧ low ∈ values ∧ high ∈ values ∧
      value low ≤ value high := by
  cases values with
  | nil => exact absurd rfl hne
  | cons first rest =>
    obtain ⟨hlow, hlowLe⟩ := foldl_choice least_spec hf
    obtain ⟨hhigh, hhighLe⟩ := foldl_choice greatest_spec hf
    exact ⟨_, _, rfl, hlow, hhigh, hlowLe.trans (neg_le_neg_iff.mp hhighLe)⟩

/-- The difference of the outermost edges of equal-width bins. -/
def width (values : List Float) : Float :=
  (Histogram.span values).2 - (Histogram.span values).1

theorem value_half : (Float.ofNat 1 / Float.ofNat 2).isFinite = true ∧
    value (Float.ofNat 1 / Float.ofNat 2) = 2 ^ (-1 : ℤ) := by
  obtain ⟨hone, hvone⟩ := value_ofNat (n := 1) (by norm_num)
  obtain ⟨htwo, hvtwo⟩ := value_ofNat (n := 2) (by norm_num)
  have hdiv := div_rounds hone htwo (by rw [hvtwo]; norm_num)
  have hhalf : value (Float.ofNat 1) / value (Float.ofNat 2) = 2 ^ (-1 : ℤ) := by
    rw [hvone, hvtwo]
    norm_num
  rw [hhalf] at hdiv
  have hf := (hdiv.abs_value_le (e := 0) (by norm_num) (by norm_num) (by norm_num)).1
  exact ⟨hf, (hdiv.value_eq hf).trans (nearest_zpow (by norm_num))⟩

theorem half_eq : Float.ofNat 1 / Float.ofNat 2 = 0.5 := by
  decide +kernel

theorem isFinite_half : (0.5 : Float).isFinite = true :=
  half_eq ▸ value_half.1

theorem value_half_eq : value 0.5 = 1 / 2 :=
  half_eq ▸ value_half.2.trans (by norm_num)

/-- A half to either side of a single value. -/
theorem halves_bounds (hlow : low.isFinite = true) (hhigh : high.isFinite = true)
    (hsame : value low = value high) :
    let half := Float.ofNat 1 / Float.ofNat 2
    (low - half).isFinite = true ∧ (high + half).isFinite = true ∧
      value (low - half) ≤ value (high + half) ∧ (high + half - (low - half)).isFinite = true := by
  intro half
  obtain ⟨hhalf, hv⟩ : half.isFinite = true ∧ value half = 2 ^ (-1 : ℤ) := value_half
  have hsmall : |value half| < 2 ^ (970 : ℤ) := by
    rw [hv, abs_of_pos (by positivity)]
    exact zpow_lt_zpow_right₀ one_lt_two (by norm_num)
  have hup := isFinite_add_small hhigh hhalf hsmall
  have hdown : (low - half).isFinite = true := by
    rw [sub_eq_add]
    refine isFinite_add_small hlow ((isFinite_neg half).trans hhalf) ?_
    rwa [value_neg, abs_neg]
  have hrup := add_rounds hhigh hhalf
  have hrdown := sub_rounds hlow hhalf
  have hpos : 0 < value half := hv ▸ by positivity
  refine ⟨hdown, hup, ?_, ?_⟩
  · rw [hrup.value_eq hup, hrdown.value_eq hdown]
    exact nearest_mono (by linarith)
  · have hfour : (2 : ℚ) ^ (972 : ℤ) = 4 * 2 ^ (970 : ℤ) := by
      rw [show (972 : ℤ) = 2 + 970 from rfl, zpow_add₀ two_ne_zero]
      norm_num
    refine ((sub_rounds hup hdown).abs_value_le (e := 972) (by norm_num) (by norm_num) ?_).1
    obtain ⟨hupLow, hupHigh⟩ := abs_le.mp (hrup.abs_value_sub_le hup)
    obtain ⟨hdownLow, hdownHigh⟩ := abs_le.mp (hrdown.abs_value_sub_le hdown)
    rw [abs_of_pos hpos] at hsmall
    rw [hfour, abs_le]
    generalize (2 : ℚ) ^ (970 : ℤ) = limit at *
    constructor
    · linarith only [hupLow, hdownHigh, hsame, hpos, hsmall]
    · linarith only [hupHigh, hdownLow, hsame, hsmall]

theorem span_bounds (hne : values ≠ []) (hf : ∀ v ∈ values, v.isFinite = true) :
    (Histogram.span values).1.isFinite = true ∧ (Histogram.span values).2.isFinite = true ∧
      value (Histogram.span values).1 ≤ value (Histogram.span values).2 ∧
      ((deviation values).isFinite = true → (width values).isFinite = true) := by
  obtain ⟨low, high, hrange, hlow, hhigh, hle⟩ := range?_bounds hne hf
  by_cases hsame : (low == high) = true
  · have hspan : Histogram.span values =
        (low - Float.ofNat 1 / Float.ofNat 2, high + Float.ofNat 1 / Float.ofNat 2) := by
      rw [Histogram.span, hrange]
      exact if_pos hsame
    have hsameValue : value low = value high := by
      obtain ⟨hnl, hnh, hrank⟩ := beq_iff.mp hsame
      exact le_antisymm hle
        ((le_iff_value (hf high hhigh) (hf low hlow)).mp (le_iff.mpr ⟨hnh, hnl, hrank.ge⟩))
    rw [width, hspan]
    obtain ⟨hdown, hup, horder, hwidth⟩ :=
      halves_bounds (hf low hlow) (hf high hhigh) hsameValue
    exact ⟨hdown, hup, horder, fun _ => hwidth⟩
  · have hspan : Histogram.span values = (low, high) := by
      rw [Histogram.span, hrange]
      exact if_neg hsame
    rw [width, hspan]
    refine ⟨hf low hlow, hf high hhigh, hle, fun h => ?_⟩
    have hnear := (abs_sub_lt_of_deviation h hhigh hlow).le
    exact ((sub_rounds (hf high hhigh) (hf low hlow)).abs_value_le (by norm_num) (by norm_num)
      hnear).1

end FairProgram.Stats
