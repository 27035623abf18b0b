import FairProgram.Proofs.Stats.Constant
import Mathlib

/-!
# Buckets around one value

The histogram of equal values spans a half to either side of them and has all mass in one bin,
however many values there are (`equalWidth_replicate`). Its distribution function at the value is a
finite number for every number of buckets (`isFinite_cdfAround`), also where the value is so large
that a half makes no difference to it.
-/

namespace FairProgram.Stats

open Double Scalar

variable {v x : Float} {rows bins : Nat}

-- ---------------------------------------------------------------------------
-- Histograms of equal values
-- ---------------------------------------------------------------------------

/-- The edges of equal-width buckets around a value. -/
def edgesAround (v : Float) (bins : Nat) : List Float :=
  evenlySpaced (v - 0.5) (v + 0.5) (bins + 1)

/-- All mass in the bin of one value, if it has one. -/
def pointMasses (edges : List Float) (v : Float) : List Float :=
  (List.range (edges.length - 1)).map fun bin =>
    if Histogram.bin? edges v = some bin then 1 else 0

/-- The distribution function of equal-width buckets around a value, at the value. -/
def cdfAround (v : Float) (bins : Nat) : Float :=
  stepCdf (Bucket.ofEdges (edgesAround v bins) (pointMasses (edgesAround v bins) v)) v

theorem range?_replicate (v : Float) (rows : Nat) :
    range? (List.replicate (rows + 1) v) = some (v, v) := by
  have hfold (op : Float → Float → Float) (hop : op v v = v) :
      (List.replicate rows v).foldl op v = v := by
    induction rows with
    | zero => rfl
    | succ rows ih => rw [List.replicate_succ, List.foldl_cons, hop, ih]
  rw [List.replicate_succ, range?, hfold least (by simp [least]),
    hfold greatest (by simp [greatest])]

theorem span_replicate (hv : v.isFinite = true) (hpos : 0 < rows) :
    Histogram.span (List.replicate rows v) = (v - 0.5, v + 0.5) := by
  obtain ⟨more, rfl⟩ := Nat.exists_eq_add_one.mpr hpos
  have hsame : (v == v) = true := beq_iff.mpr ⟨isNaN_of_isFinite hv, isNaN_of_isFinite hv, rfl⟩
  rw [← half_eq, Histogram.span, range?_replicate]
  exact if_pos hsame

theorem shares_replicate (hpos : 0 < rows) (hrows : rows ≤ Whole.maxWord) (edges : List Float)
    (v : Float) :
    (Histogram.ofEdges (List.replicate rows v) edges).shares rows = pointMasses edges v := by
  have hcount (bin : Nat) : ((List.replicate rows v).filterMap (Histogram.bin? edges)).count bin =
      if Histogram.bin? edges v = some bin then rows else 0 := by
    cases h : Histogram.bin? edges v with
    | none => simp [h]
    | some place => simp [h, List.count_replicate]
  rw [pointMasses, Histogram.shares, Histogram.ofEdges, List.map_map]
  refine List.map_congr_left fun bin _ => ?_
  rw [Function.comp_apply, hcount, if_neg hpos.ne']
  split
  · exact share_one hpos hrows
  · exact share_zero hpos hrows

theorem equalWidth_replicate (hv : v.isFinite = true) (hpos : 0 < rows)
    (hrows : rows ≤ Whole.maxWord) (bins : Nat) :
    (Histogram.equalWidth (List.replicate rows v) bins).edges = edgesAround v bins ∧
      (Histogram.equalWidth (List.replicate rows v) bins).shares rows =
        pointMasses (edgesAround v bins) v := by
  have hhistogram : Histogram.equalWidth (List.replicate rows v) bins =
      Histogram.ofEdges (List.replicate rows v) (edgesAround v bins) := by
    rw [Histogram.equalWidth, span_replicate hv hpos]
    rfl
  rw [hhistogram]
  exact ⟨rfl, shares_replicate hpos hrows _ v⟩

-- ---------------------------------------------------------------------------
-- Distribution functions of buckets
-- ---------------------------------------------------------------------------

/-- A finite double so far from the greatest that differences do not overflow. -/
def Moderate (x : Float) : Prop :=
  x.isFinite = true ∧ |value x| ≤ 2 ^ (121 : ℤ)

theorem Moderate.sub {y : Float} (hx : Moderate x) (hy : Moderate y) :
    (x - y).isFinite = true ∧ value (x - y) = nearest (value x - value y) := by
  have htwice : (2 : ℚ) ^ (122 : ℤ) = 2 ^ (121 : ℤ) + 2 ^ (121 : ℤ) := by norm_num
  have hle : |value x - value y| ≤ 2 ^ (122 : ℤ) :=
    (abs_sub _ _).trans ((add_le_add hx.2 hy.2).trans_eq htwice.symm)
  have hrounds := sub_rounds hx.1 hy.1
  have hf := (hrounds.abs_value_le (by norm_num) (by norm_num) hle).1
  exact ⟨hf, hrounds.value_eq hf⟩

/-- The part of a bucket up to a value inside it. -/
theorem fraction_mem_unit {lower upper : Float} (hx : Moderate x) (hlower : Moderate lower)
    (hupper : Moderate upper) (hlow : ¬ x ≤ lower) (hhigh : ¬ upper ≤ x) :
    ((x - lower) / (upper - lower)).isFinite = true ∧
      0 ≤ value ((x - lower) / (upper - lower)) ∧ value ((x - lower) / (upper - lower)) ≤ 1 := by
  rw [le_iff_value hx.1 hlower.1, not_le] at hlow
  rw [le_iff_value hupper.1 hx.1, not_le] at hhigh
  obtain ⟨hpart, hpartValue⟩ := hx.sub hlower
  obtain ⟨hwhole, hwholeValue⟩ := hupper.sub hlower
  have hpos : 0 < value (upper - lower) := hwholeValue ▸ nearest_sub_pos (hlow.trans hhigh)
  have hnonneg : 0 ≤ value (x - lower) := hpartValue ▸ nearest_nonneg (sub_nonneg.mpr hlow.le)
  have hle : value (x - lower) ≤ value (upper - lower) := by
    rw [hpartValue, hwholeValue]
    exact nearest_mono (by linarith)
  have hdiv := div_rounds hpart hwhole hpos.ne'
  have hzero := rounds_zero.le hdiv (div_nonneg hnonneg hpos.le)
  have hone := hdiv.le rounds_one ((div_le_one hpos).mpr hle)
  have hf := isFinite_of_between isFinite_zero isFinite_one hzero hone
  refine ⟨hf, value_nonneg hf hzero, ?_⟩
  rwa [le_iff_value hf isFinite_one, value_one] at hone

/-- Sums of masses up to one stay below `2 ^ 53`: from there on one makes no difference. -/
theorem massUpTo_bounded {buckets : List (Bucket Float)} {below : Float} (hx : Moderate x)
    (h : ∀ b ∈ buckets, Moderate b.lower ∧ Moderate b.upper ∧ b.mass.isFinite = true ∧
      |value b.mass| ≤ 1) (hbelow : below.isFinite = true ∧ |value below| ≤ 2 ^ (53 : ℤ)) :
    (massUpTo x below buckets).isFinite = true ∧
      |value (massUpTo x below buckets)| ≤ 2 ^ (53 : ℤ) := by
  induction buckets generalizing below with
  | nil => exact hbelow
  | cons b rest ih =>
    obtain ⟨⟨hlower, hupper, hmass, hone⟩, hrest⟩ := List.forall_mem_cons.mp h
    rw [massUpTo]
    split
    · exact hbelow
    rename_i hlow
    split
    · exact ih hrest (add_bounded (by norm_num) (by norm_num) hbelow ⟨hmass, by simpa using hone⟩)
    · rename_i hhigh
      obtain ⟨hfraction, hnonneg, hle⟩ := fraction_mem_unit hx hlower hupper hlow hhigh
      have hpart : |value ((x - b.lower) / (b.upper - b.lower)) * value b.mass| ≤ 2 ^ (0 : ℤ) := by
        rw [abs_mul, abs_of_nonneg hnonneg, zpow_zero]
        exact mul_le_one₀ hle (abs_nonneg _) hone
      exact ih hrest (add_bounded (by norm_num) (by norm_num) hbelow
        ((mul_rounds hfraction hmass).abs_value_le (by norm_num) (by norm_num) hpart))

theorem massUpTo_of_le {buckets : List (Bucket Float)} (h : ∀ b ∈ buckets, x ≤ b.lower)
    (below : Float) : massUpTo x below buckets = below := by
  cases buckets with
  | nil => rfl
  | cons b rest => exact if_pos (h b List.mem_cons_self)

theorem Bucket.mem_ofEdges {edges masses : List Float} {b : Bucket Float}
    (h : b ∈ Bucket.ofEdges edges masses) :
    b.lower ∈ edges ∧ b.upper ∈ edges ∧ b.mass ∈ masses := by
  fun_induction Bucket.ofEdges edges masses with
  | case1 lower upper edges mass masses ih =>
    obtain rfl | h := List.mem_cons.mp h
    · simp
    · obtain ⟨hlower, hupper, hmass⟩ := ih h
      exact ⟨List.mem_cons_of_mem _ hlower, List.mem_cons_of_mem _ hupper,
        List.mem_cons_of_mem _ hmass⟩
  | case2 => cases h

-- ---------------------------------------------------------------------------
-- Edges around a value
-- ---------------------------------------------------------------------------

theorem edgesAround_succ (v : Float) (more : Nat) : edgesAround v (more + 1) =
    (List.range (more + 1)).map (fun i => (v - 0.5) +
      (v + 0.5 - (v - 0.5)) / Float.ofNat (more + 1) * Float.ofNat i) ++ [v + 0.5] :=
  rfl

theorem edgesAround_moderate (hv : v.isFinite = true) (hsmall : |value v| ≤ 2 ^ (54 : ℤ))
    (hpos : 0 < bins) (hbins : bins ≤ Whole.maxWord) :
    ∀ edge ∈ edgesAround v bins, Moderate edge := by
  obtain ⟨more, rfl⟩ := Nat.exists_eq_add_one.mpr hpos
  have hhalf : |value 0.5| ≤ 1 := by rw [value_half_eq]; norm_num
  obtain ⟨hlow, hlowLe⟩ := (sub_rounds hv isFinite_half).abs_value_le (e := 55) (by norm_num)
    (by norm_num) ((abs_sub _ _).trans ((add_le_add hsmall hhalf).trans (by norm_num)))
  obtain ⟨hhigh, hhighLe⟩ := (add_rounds hv isFinite_half).abs_value_le (e := 55) (by norm_num)
    (by norm_num) ((abs_add_le _ _).trans ((add_le_add hsmall hhalf).trans (by norm_num)))
  obtain ⟨hwidth, hwidthLe⟩ := (sub_rounds hhigh hlow).abs_value_le (e := 56) (by norm_num)
    (by norm_num) ((abs_sub _ _).trans ((add_le_add hhighLe hlowLe).trans (by norm_num)))
  obtain ⟨hstep, hstepLe⟩ := div_rows_bounded (Nat.succ_pos more) hbins hwidth
  rw [edgesAround_succ, List.forall_mem_append, List.forall_mem_map, List.forall_mem_singleton]
  refine ⟨fun i hi => ?_, hhigh, hhighLe.trans (zpow_le_zpow_right₀ one_le_two (by norm_num))⟩
  have hword : |(i : ℚ)| ≤ 2 ^ (64 : ℤ) := by
    have hi := (List.mem_range.mp hi).le.trans hbins
    rw [Nat.abs_cast]
    exact_mod_cast hi.trans (by decide)
  obtain ⟨hcount, hcountLe⟩ := (ofNat_rounds i).abs_value_le (by norm_num) (by norm_num) hword
  obtain ⟨hmultiple, hmultipleLe⟩ := (mul_rounds hstep hcount).abs_value_le (e := 120)
    (by norm_num) (by norm_num) (by
      rw [abs_mul]
      exact (mul_le_mul (hstepLe.trans hwidthLe) hcountLe (abs_nonneg _) (by positivity)).trans_eq
        (by norm_num))
  exact (add_rounds hlow hmultiple).abs_value_le (by norm_num) (by norm_num)
    ((abs_add_le _ _).trans ((add_le_add hlowLe hmultipleLe).trans (by norm_num)))

/-- A half makes no difference to a large value. -/
theorem add_half_of_large (hv : v.isFinite = true) (hlarge : 2 ^ (54 : ℤ) ≤ |value v|) :
    v - 0.5 = v ∧ v + 0.5 = v := by
  have hne : value v ≠ 0 := abs_pos.mp ((by positivity : (0 : ℚ) < 2 ^ (54 : ℤ)).trans_le hlarge)
  have hsame {y : Float} {d : ℚ} (hy : Rounds y (value v + d)) (hd : |d| ≤ 1 / 2) : y = v := by
    have hnearest := nearest_add_of_large hlarge hd
    obtain ⟨hf, hvalue⟩ := hy.of_lt (by rw [hnearest]; exact abs_value_lt v)
    exact eq_of_value hf hv (hvalue.trans hnearest) (by rw [hvalue, hnearest]; exact hne)
  have hdown := sub_rounds hv isFinite_half
  have hup := add_rounds hv isFinite_half
  rw [value_half_eq] at hdown hup
  rw [sub_eq_add_neg] at hdown
  exact ⟨hsame hdown (by norm_num), hsame hup (by norm_num)⟩

theorem edgesAround_of_large (hv : v.isFinite = true) (hlarge : 2 ^ (54 : ℤ) ≤ |value v|)
    (hpos : 0 < bins) (hbins : bins ≤ Whole.maxWord) : ∀ edge ∈ edgesAround v bins, edge = v := by
  obtain ⟨more, rfl⟩ := Nat.exists_eq_add_one.mpr hpos
  obtain ⟨hdown, hup⟩ := add_half_of_large hv hlarge
  have hne : value v ≠ 0 := abs_pos.mp ((by positivity : (0 : ℚ) < 2 ^ (54 : ℤ)).trans_le hlarge)
  rw [edgesAround_succ, hdown, hup, List.forall_mem_append, List.forall_mem_map,
    List.forall_mem_singleton]
  refine ⟨fun i hi => ?_, rfl⟩
  have hrows := isFinite_word hbins
  have hi : i ≤ Whole.maxWord := (List.mem_range.mp hi).le.trans hbins
  obtain ⟨hwidth, hwidthZero⟩ := (sub_self (value v) ▸ sub_rounds hv hv : Rounds (v - v) 0).of_zero
  have hdiv := div_rounds hwidth hrows (value_pos hrows (ofNat_pos hpos)).ne'
  rw [hwidthZero, zero_div] at hdiv
  obtain ⟨hstep, hstepZero⟩ := hdiv.of_zero
  have hmul := mul_rounds hstep (isFinite_word hi)
  rw [hstepZero, zero_mul] at hmul
  obtain ⟨hmultiple, hmultipleZero⟩ := hmul.of_zero
  have hadd := add_rounds hv hmultiple
  rw [hmultipleZero, add_zero] at hadd
  exact hadd.eq_of_ne_zero hv hne

-- ---------------------------------------------------------------------------
-- The distribution function at the value
-- ---------------------------------------------------------------------------

theorem isFinite_cdfAround (hv : v.isFinite = true) (hpos : 0 < bins)
    (hbins : bins ≤ Whole.maxWord) : (cdfAround v bins).isFinite = true := by
  obtain hsmall | hlarge := le_total |value v| (2 ^ (54 : ℤ))
  · have hmoderate : Moderate v := ⟨hv, hsmall.trans (zpow_le_zpow_right₀ one_le_two (by norm_num))⟩
    have hedges := edgesAround_moderate hv hsmall hpos hbins
    refine (massUpTo_bounded hmoderate (fun b hb => ?_) ⟨isFinite_zero, ?_⟩).1
    · obtain ⟨hlower, hupper, hmass⟩ := Bucket.mem_ofEdges hb
      refine ⟨hedges _ hlower, hedges _ hupper, ?_⟩
      obtain ⟨bin, -, hbin⟩ := List.mem_map.mp hmass
      rw [← hbin]
      split
      · exact ⟨isFinite_one, by rw [value_one, abs_one]⟩
      · exact ⟨isFinite_zero, by rw [value_zero, abs_zero]; exact zero_le_one⟩
    · show |value 0| ≤ 2 ^ (53 : ℤ)
      rw [value_zero, abs_zero]
      positivity
  · have hedges := edgesAround_of_large hv hlarge hpos hbins
    have hnone : cdfAround v bins = 0 := massUpTo_of_le (fun b hb => by
      rw [hedges _ (Bucket.mem_ofEdges hb).1]
      exact le_self (isNaN_of_isFinite hv)) _
    rw [hnone]
    exact isFinite_zero

end FairProgram.Stats
