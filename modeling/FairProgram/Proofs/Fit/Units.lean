import FairProgram.Fit.Step
import FairProgram.Proofs.Double.Bits
import FairProgram.Proofs.Double.Error
import Mathlib

/-!
# Units of step distributions

All amounts but the last are rounded, and the last takes what is left, so that the units of a step
distribution add up to the whole unless the rounded amounts exceed it by more than the largest of
them (`sum_quantize`). Shares of counts exceed it by less than half a unit for each rounded bucket,
which is no more than the largest where there are few buckets for the number of units
(`StepFit.sum_units_shares`).
-/

namespace FairProgram

open Whole

-- ---------------------------------------------------------------------------
-- Taking from the largest
-- ---------------------------------------------------------------------------

def largest (amounts : List Nat) : Nat :=
  amounts.foldr max 0

theorem le_largest {amounts : List Nat} {amount : Nat} (h : amount ∈ amounts) :
    amount ≤ largest amounts :=
  List.le_max_of_le h le_rfl

theorem largest_le {amounts : List Nat} {most : Nat} (h : ∀ amount ∈ amounts, amount ≤ most) :
    largest amounts ≤ most :=
  List.max_le_of_forall_le amounts most h

theorem le_bestFrom (first : Nat × Nat) (rest : List (Nat × Nat)) : ∀ candidate ∈ first :: rest,
    candidate.1 ≤ (bestFrom (fun next best => best.1 ≤ next.1) first rest).1 := by
  induction rest generalizing first with
  | nil => simp [bestFrom]
  | cons next rest ih =>
    set later := if first.1 ≤ next.1 then next else first with hlater
    have hbest : bestFrom (fun next best => best.1 ≤ next.1) first (next :: rest) =
        bestFrom (fun next best => best.1 ≤ next.1) later rest := by
      simp [bestFrom, hlater]
    have hle : first.1 ≤ later.1 ∧ next.1 ≤ later.1 := by
      rw [hlater]
      split <;> omega
    have hall := ih later
    rw [List.forall_mem_cons] at hall
    rw [hbest, List.forall_mem_cons, List.forall_mem_cons]
    exact ⟨hle.1.trans hall.1, hle.2.trans hall.1, hall.2⟩

theorem firstBest?_zipIdx {amounts : List Nat} {amount place : Nat}
    (h : firstBest? (fun (next best : Nat × Nat) => best.1 ≤ next.1) amounts.zipIdx =
      some (amount, place)) : amounts[place]? = some amount ∧ amount = largest amounts := by
  have hmem := mem_of_firstBest?_eq_some _ h
  have hplace : amounts[place]? = some amount := List.mk_mem_zipIdx_iff_getElem?.mp hmem
  refine ⟨hplace, le_antisymm (le_largest (List.mem_of_getElem? hplace)) (largest_le ?_)⟩
  intro other hother
  obtain ⟨index, hindex⟩ := List.mem_iff_getElem?.mp hother
  have hcandidate := List.mk_mem_zipIdx_iff_getElem?.mpr hindex
  cases hzip : amounts.zipIdx with
  | nil =>
    rw [hzip] at hcandidate
    cases hcandidate
  | cons first rest =>
    rw [hzip] at h hcandidate
    have hle := le_bestFrom first rest _ hcandidate
    rwa [Option.some.inj h] at hle

theorem sum_modify {amounts : List Nat} {amount place : Nat} (h : amounts[place]? = some amount)
    (excess : Nat) :
    sum (amounts.modify place (· - excess)) + min excess amount = sum amounts := by
  induction amounts generalizing place with
  | nil => cases h
  | cons first rest ih =>
    cases place with
    | zero =>
      cases h
      simp only [List.modify_zero_cons, sum_cons]
      omega
    | succ place =>
      simp only [List.modify_succ_cons, sum_cons, ← ih h]
      omega

theorem sum_takeFromLargest (excess : Nat) (amounts : List Nat) :
    sum (takeFromLargest excess amounts) + min excess (largest amounts) = sum amounts := by
  unfold takeFromLargest
  split
  · rename_i hnone
    rw [firstBest?_eq_none_iff, List.zipIdx_eq_nil_iff] at hnone
    simp [hnone, largest]
  · rename_i amount place hbest
    obtain ⟨hplace, rfl⟩ := firstBest?_zipIdx hbest
    exact sum_modify hplace excess

/-- All probabilities but the last in units, each rounded by itself. -/
def roundedUnits (probabilities : List Float) (places : Nat) : List Nat :=
  probabilities.dropLast.map fun p => wholeUnits (clampUnit p * Float.ofNat (powTen places))

theorem sum_quantize {probabilities : List Float} {places : Nat}
    (h : sum (roundedUnits probabilities places) ≤ maxWord) :
    sum (quantize probabilities places) =
      max (powTen places) (sum (roundedUnits probabilities places) -
        largest (roundedUnits probabilities places)) := by
  set rounded := roundedUnits probabilities places with hrounded
  have hquantize : quantize probabilities places =
      (if powTen places < wordSum rounded then
        takeFromLargest (wordSum rounded - powTen places) rounded else rounded) ++
      [powTen places - wordSum (if powTen places < wordSum rounded then
        takeFromLargest (wordSum rounded - powTen places) rounded else rounded)] := rfl
  rw [hquantize, wordSum_eq_sum h, sum_append]
  split
  · have htaken := sum_takeFromLargest (sum rounded - powTen places) rounded
    rw [wordSum_eq_sum (by omega), sum_cons, sum_nil]
    omega
  · rw [wordSum_eq_sum h, sum_cons, sum_nil]
    omega

-- ---------------------------------------------------------------------------
-- Shares in units
-- ---------------------------------------------------------------------------

section
open Double

variable {count size places : Nat}

/-- The errors of two numbers, of their quotient and of its units. -/
def unitsError : ℚ := 9 / 2 * roundoff

theorem unitsError_pos : 0 < unitsError := by
  norm_num [unitsError, roundoff]

theorem unitsError_small : 10 ^ 15 * unitsError < 1 / 2 := by
  norm_num [unitsError, roundoff]

theorem value_powTen (h : places ≤ maxDecimalPlaces) :
    (Float.ofNat (powTen places)).isFinite = true ∧
      value (Float.ofNat (powTen places)) = powTen places := by
  refine value_ofNat ?_
  calc powTen places ≤ 10 ^ 15 := Nat.pow_le_pow_right (by norm_num) h
    _ < 2 ^ 53 := by norm_num

theorem value_word (h : size ≤ maxWord) (hpos : 0 < size) :
    size * (1 - roundoff) ≤ value (Float.ofNat size) ∧
      value (Float.ofNat size) ≤ size * (1 + roundoff) := by
  have hone : (1 : ℚ) ≤ size := by exact_mod_cast hpos
  have hle : (2 : ℚ) ^ (-1022 : ℤ) ≤ size :=
    (zpow_le_one_of_nonpos₀ one_le_two (by norm_num)).trans hone
  have hfinite := isFinite_word h
  exact ⟨(ofNat_rounds size).le_value hfinite hle, (ofNat_rounds size).value_le hfinite hle⟩

theorem clampUnit_of_mem {p : Float} (h : 0 ≤ p) (h' : p ≤ 1) : clampUnit p = p := by
  rw [clampUnit, if_neg fun hlt => not_le_of_lt hlt h, if_neg fun hlt => not_le_of_lt hlt h']

/-- A share is a quotient of two numbers, each with its error, and has an error of its own. -/
theorem value_share_le (hle : count ≤ size) (hcount : 0 < count) (hmax : size ≤ maxWord)
    (hf : (Float.ofNat count / Float.ofNat size).isFinite = true) :
    2 ^ (-67 : ℤ) ≤ value (Float.ofNat count / Float.ofNat size) ∧
      value (Float.ofNat count / Float.ofNat size) ≤
        count / size * ((1 + roundoff) ^ 2 / (1 - roundoff)) := by
  have hpos : 0 < size := hcount.trans_le hle
  have hu := roundoff_pos
  have hu' := roundoff_lt_half
  have hc : (1 : ℚ) ≤ count := by exact_mod_cast hcount
  have hs : (0 : ℚ) < size := by exact_mod_cast hpos
  have hword : (size : ℚ) ≤ 2 ^ 64 := by exact_mod_cast hmax.trans (by decide)
  obtain ⟨hlow, hhigh⟩ := value_word (hle.trans hmax) hcount
  obtain ⟨hlow', hhigh'⟩ := value_word hmax hpos
  have hsize : 0 < value (Float.ofNat size) :=
    (mul_pos hs (by linarith)).trans_le hlow'
  have hrounds := div_rounds (isFinite_word (hle.trans hmax)) (isFinite_word hmax) hsize.ne'
  have hratio : (2 : ℚ) ^ (-66 : ℤ) ≤ value (Float.ofNat count) / value (Float.ofNat size) := by
    rw [le_div_iff₀ hsize]
    have h1 : value (Float.ofNat size) ≤ 2 ^ 65 := by nlinarith
    have h2 : 1 / 2 ≤ value (Float.ofNat count) := by nlinarith
    norm_num at *
    linarith
  have hnormal : (2 : ℚ) ^ (-1022 : ℤ) ≤ 2 ^ (-66 : ℤ) :=
    zpow_le_zpow_right₀ one_le_two (by norm_num)
  have hleast := hrounds.le_value hf (hnormal.trans hratio)
  have hmost := hrounds.value_le hf (hnormal.trans hratio)
  constructor
  · calc (2 : ℚ) ^ (-67 : ℤ) = 2 ^ (-66 : ℤ) * (1 / 2) := by norm_num
      _ ≤ value (Float.ofNat count) / value (Float.ofNat size) * (1 - roundoff) :=
        mul_le_mul hratio (by linarith) (by norm_num) (by positivity)
      _ ≤ _ := hleast
  · have hquotient : value (Float.ofNat count) / value (Float.ofNat size) ≤
        count * (1 + roundoff) / (size * (1 - roundoff)) :=
      div_le_div₀ (by positivity) hhigh (mul_pos hs (by linarith)) hlow'
    have hne : 1 - roundoff ≠ 0 := by linarith
    calc value (Float.ofNat count / Float.ofNat size)
        ≤ value (Float.ofNat count) / value (Float.ofNat size) * (1 + roundoff) := hmost
      _ ≤ count * (1 + roundoff) / (size * (1 - roundoff)) * (1 + roundoff) :=
        mul_le_mul_of_nonneg_right hquotient (by linarith)
      _ = count / size * ((1 + roundoff) ^ 2 / (1 - roundoff)) := by field_simp

theorem value_amount (hle : count ≤ size) (hpos : 0 < size) (hmax : size ≤ maxWord)
    (hplaces : places ≤ maxDecimalPlaces) :
    let amount := clampUnit (Float.ofNat count / Float.ofNat size) * Float.ofNat (powTen places)
    amount.isFinite = true ∧ 0 ≤ amount ∧
      value amount ≤ powTen places * (1 + unitsError) * (count / size) := by
  have hsize := isFinite_word hmax
  obtain ⟨hnonneg, hone⟩ :=
    div_mem_unit (ofNat_nonneg count) (ofNat_pos hpos) hsize (ofNat_le hle)
  have hshare := isFinite_of_between isFinite_zero isFinite_one hnonneg hone
  have hvnonneg := value_nonneg hshare hnonneg
  have hvone : value (Float.ofNat count / Float.ofNat size) ≤ 1 := by
    rwa [le_iff_value hshare isFinite_one, value_one] at hone
  obtain ⟨hwhole, hvwhole⟩ := value_powTen hplaces
  have hrounds := mul_rounds hshare hwhole
  rw [clampUnit_of_mem hnonneg hone]
  intro amount
  have hten : (1 : ℚ) ≤ powTen places := by exact_mod_cast powTen_pos places
  have hle0 : 0 ≤ amount := rounds_zero.le hrounds (by rw [hvwhole]; positivity)
  have hmost : amount ≤ Float.ofNat (powTen places) := by
    refine hrounds.le (rounds_value hwhole) ?_
    rw [hvwhole]
    exact mul_le_of_le_one_left (by positivity) hvone
  have hfinite := isFinite_of_between isFinite_zero hwhole hle0 hmost
  refine ⟨hfinite, hle0, ?_⟩
  obtain rfl | hcount := Nat.eq_zero_or_pos count
  · have hsizeValue := value_pos hsize (ofNat_pos hpos)
    have hshareValue := (div_rounds (isFinite_word (Nat.zero_le _)) hsize hsizeValue.ne').value_eq
      hshare
    rw [(value_ofNat (n := 0) (by norm_num)).2, Nat.cast_zero, zero_div, nearest_zero]
      at hshareValue
    rw [hrounds.value_eq hfinite, hshareValue]
    simp
  · obtain ⟨hleast, hshareError⟩ := value_share_le hle hcount hmax hshare
    rw [hvwhole] at hrounds
    have hnormal : (2 : ℚ) ^ (-1022 : ℤ) ≤
        value (Float.ofNat count / Float.ofNat size) * powTen places :=
      calc (2 : ℚ) ^ (-1022 : ℤ) ≤ 2 ^ (-67 : ℤ) := zpow_le_zpow_right₀ one_le_two (by norm_num)
        _ ≤ value (Float.ofNat count / Float.ofNat size) := hleast
        _ ≤ _ := le_mul_of_one_le_right hvnonneg hten
    have herror : (1 + roundoff) ^ 2 / (1 - roundoff) * (1 + roundoff) ≤ 1 + unitsError := by
      norm_num [roundoff, unitsError]
    have hu := roundoff_pos
    calc value amount
        ≤ value (Float.ofNat count / Float.ofNat size) * powTen places * (1 + roundoff) :=
          hrounds.value_le hfinite hnormal
      _ ≤ count / size * ((1 + roundoff) ^ 2 / (1 - roundoff)) * powTen places *
            (1 + roundoff) := by gcongr
      _ = powTen places * (count / size) *
            ((1 + roundoff) ^ 2 / (1 - roundoff) * (1 + roundoff)) := by ring
      _ ≤ powTen places * (count / size) * (1 + unitsError) := by gcongr
      _ = powTen places * (1 + unitsError) * (count / size) := by ring

/-- Rounding adds at most a half, and nothing to less than a half. -/
theorem wholeUnits_le {x : Float} (hf : x.isFinite = true) (h : 0 ≤ x) :
    (wholeUnits x : ℚ) ≤ value x + 1 / 2 ∧ (wholeUnits x : ℚ) ≤ 2 * value x := by
  have hv := value_nonneg hf h
  have hle : (wholeUnits x : ℚ) ≤ value x + 1 / 2 := by
    rw [wholeUnits_eq_floor hf h]
    exact Nat.floor_le (by positivity)
  refine ⟨hle, ?_⟩
  obtain hzero | hpos := Nat.eq_zero_or_pos (wholeUnits x)
  · rw [hzero, Nat.cast_zero]
    positivity
  · have hone : (1 : ℚ) ≤ wholeUnits x := by exact_mod_cast hpos
    linarith

/-- The units of a count. -/
def countUnits (places size count : Nat) : Nat :=
  wholeUnits (clampUnit (Float.ofNat count / Float.ofNat size) * Float.ofNat (powTen places))

theorem sum_countUnits_le (hpos : 0 < size) (hmax : size ≤ maxWord)
    (hplaces : places ≤ maxDecimalPlaces) {counts : List Nat}
    (hle : ∀ count ∈ counts, count ≤ size) :
    (sum (counts.map (countUnits places size)) : ℚ) ≤
        powTen places * (1 + unitsError) * (sum counts / size) + counts.length / 2 ∧
      (sum (counts.map (countUnits places size)) : ℚ) ≤
        2 * (powTen places * (1 + unitsError) * (sum counts / size)) := by
  induction counts with
  | nil => simp
  | cons count rest ih =>
    obtain ⟨hcount, hrest⟩ := List.forall_mem_cons.mp hle
    obtain ⟨hfinite, hnonneg, hvalue⟩ := value_amount hcount hpos hmax hplaces
    obtain ⟨hhalf, htwice⟩ := wholeUnits_le hfinite hnonneg
    obtain ⟨ihhalf, ihtwice⟩ := ih hrest
    rw [List.map_cons, sum_cons, sum_cons, List.length_cons]
    push_cast
    rw [add_div, mul_add]
    constructor
    · have : (countUnits places size count : ℚ) ≤
        powTen places * (1 + unitsError) * (count / size) + 1 / 2 := hhalf.trans (by linarith)
      linarith
    · have : (countUnits places size count : ℚ) ≤
        2 * (powTen places * (1 + unitsError) * (count / size)) := htwice.trans (by linarith)
      linarith

theorem sum_le_mul_largest (amounts : List Nat) :
    sum amounts ≤ amounts.length * largest amounts :=
  List.sum_le_card_nsmul amounts (largest amounts) fun _ h => le_largest h

end

-- ---------------------------------------------------------------------------
-- Step distributions of counts
-- ---------------------------------------------------------------------------

section
open Stats

variable {h : Histogram Float} {places : Nat}

theorem roundedUnits_shares (hpos : 0 < h.size) :
    roundedUnits (h.shares h.size) places =
      h.counts.dropLast.map (countUnits places h.size) := by
  rw [roundedUnits, Histogram.shares, ← List.map_dropLast, List.map_map]
  refine List.map_congr_left fun count _ => ?_
  rw [Function.comp_apply, if_neg hpos.ne']
  rfl

/-- The rounded units exceed the whole by half a unit for each of them at most. -/
theorem sum_roundedUnits_shares_le (hpos : 0 < h.size) (hmax : h.size ≤ maxWord)
    (hplaces : places ≤ maxDecimalPlaces) :
    2 * sum (roundedUnits (h.shares h.size) places) ≤ 2 * powTen places + (h.counts.length - 1) ∧
      sum (roundedUnits (h.shares h.size) places) ≤ maxWord := by
  rw [roundedUnits_shares hpos, ← List.length_dropLast]
  set counts := h.counts.dropLast with hcounts
  have hsum : sum counts ≤ h.size := List.Sublist.sum_le_sum (List.dropLast_sublist _) (by simp)
  have hle (count : Nat) (hcount : count ∈ counts) : count ≤ h.size :=
    (List.le_sum_of_mem hcount).trans hsum
  obtain ⟨hhalf, htwice⟩ := sum_countUnits_le hpos hmax hplaces hle
  have hten : (powTen places : ℚ) ≤ 10 ^ 15 := by
    exact_mod_cast Nat.pow_le_pow_right (by norm_num) hplaces
  have hratio : (sum counts : ℚ) / h.size ≤ 1 :=
    div_le_one_of_le₀ (by exact_mod_cast hsum) (Nat.cast_nonneg _)
  have herror : powTen places * unitsError < 1 / 2 := by
    have hpos := unitsError_pos
    calc powTen places * unitsError ≤ 10 ^ 15 * unitsError := by gcongr
      _ < 1 / 2 := unitsError_small
  have hwhole :
      powTen places * (1 + unitsError) * (sum counts / h.size) < powTen places + 1 / 2 := by
    have hpos := unitsError_pos
    have hunits : 0 ≤ powTen places * (1 + unitsError) := by positivity
    calc powTen places * (1 + unitsError) * (sum counts / h.size)
        ≤ powTen places * (1 + unitsError) := mul_le_of_le_one_right hunits hratio
      _ < powTen places + 1 / 2 := by linarith
  constructor
  · have hlt : ((2 * sum (counts.map (countUnits places h.size)) : ℕ) : ℚ) <
        (2 * powTen places + counts.length + 1 : ℕ) := by
      push_cast
      linarith
    have := Nat.cast_lt.mp hlt
    omega
  · have hlt : ((sum (counts.map (countUnits places h.size)) : ℕ) : ℚ) < maxWord := by
      calc (sum (counts.map (countUnits places h.size)) : ℚ)
          < 2 * (powTen places + 1 / 2) := by linarith
        _ ≤ 2 * (10 ^ 15 + 1 / 2) := by linarith
        _ < maxWord := by norm_num [maxWord]
    exact (Nat.cast_lt.mp hlt).le

/-- An excess of less than half a unit for each amount is no more than the largest of them. -/
theorem sub_largest_le {whole total most amounts : Nat} (hexcess : 2 * total ≤ 2 * whole + amounts)
    (hmost : total ≤ amounts * most) (hfew : amounts * (amounts - 3) < 2 * whole) :
    total - most ≤ whole := by
  by_contra hlt
  obtain ⟨excess, rfl⟩ : ∃ excess, total = whole + excess := ⟨total - whole, by omega⟩
  have hmore : most + 1 ≤ excess := by omega
  have hhalf : 2 * excess ≤ amounts := by omega
  have hmul : whole + excess + amounts ≤ amounts * excess := by nlinarith
  have hthree : 3 ≤ amounts := by
    by_contra hfewer
    have : excess ≤ 1 := by omega
    nlinarith
  obtain ⟨more, rfl⟩ : ∃ more, amounts = more + 3 := ⟨amounts - 3, by omega⟩
  rw [Nat.add_sub_cancel] at hfew
  nlinarith

/-- Histograms of positive size have step distributions to any number of places. Their units add up
to the whole, or to the rounded units without the largest of them where that is more. It is not more
where there are few buckets for the number of units. -/
theorem StepFit.sum_units_shares (hedges : h.edges.length = h.counts.length + 1)
    (hpos : 0 < h.size) (hmax : h.size ≤ maxWord) (places : Nat) :
    ∃ fit, ofProbabilities? h.edges (h.shares h.size) places = some fit ∧
      fit.places = min places maxDecimalPlaces ∧
      sum (roundedUnits (h.shares h.size) fit.places) ≤ maxWord ∧
      sum fit.units = max (powTen fit.places)
        (sum (roundedUnits (h.shares h.size) fit.places) -
          largest (roundedUnits (h.shares h.size) fit.places)) ∧
      ((h.counts.length - 1) * (h.counts.length - 4) < 2 * powTen fit.places →
        sum fit.units = powTen fit.places) := by
  have hne : h.counts ≠ [] := by
    intro hnil
    simp [Histogram.size, hnil] at hpos
  have hshares : h.shares h.size ≠ [] := by
    rw [← List.length_pos_iff, Histogram.length_shares]
    exact List.length_pos_iff.mpr hne
  have hfit : h.shares h.size ≠ [] ∧ h.edges.length = (h.shares h.size).length + 1 :=
    ⟨hshares, hedges.trans (by rw [Histogram.length_shares]; rfl)⟩
  refine ⟨_, dif_pos hfit, rfl, ?_⟩
  have hplaces : min places maxDecimalPlaces ≤ maxDecimalPlaces := min_le_right _ _
  obtain ⟨hexcess, hword⟩ := sum_roundedUnits_shares_le hpos hmax hplaces
  refine ⟨hword, sum_quantize hword, fun hfew => ?_⟩
  have hlength : (roundedUnits (h.shares h.size) (min places maxDecimalPlaces)).length =
      h.counts.length - 1 := by
    simp [roundedUnits, Histogram.bins]
  have hmost := sum_le_mul_largest
    (roundedUnits (h.shares h.size) (min places maxDecimalPlaces))
  rw [hlength] at hmost
  refine (sum_quantize hword).trans (max_eq_left ?_)
  exact sub_largest_le hexcess hmost (by rwa [Nat.sub_sub])

def thirds : Histogram Float :=
  ⟨[1, 1, 1], [0, 1, 2, 3]⟩

theorem StepFit.sum_units_shares_thirds :
    thirds.edges.length = thirds.counts.length + 1 ∧ 0 < thirds.size ∧ thirds.size ≤ maxWord ∧
      ∃ fit, ofProbabilities? thirds.edges (thirds.shares thirds.size) 6 = some fit ∧
        sum fit.units = 1000000 := by
  have hedges : thirds.edges.length = thirds.counts.length + 1 := rfl
  have hpos : 0 < thirds.size := by decide
  have hmax : thirds.size ≤ maxWord := by decide
  obtain ⟨fit, hfit, hplaces, -, -, hfew⟩ := sum_units_shares hedges hpos hmax 6
  have hwhole : powTen (min 6 maxDecimalPlaces) = 1000000 := by norm_num [powTen, maxDecimalPlaces]
  rw [hplaces, hwhole] at hfew
  exact ⟨hedges, hpos, hmax, fit, hfit, hfew (by norm_num [thirds])⟩

/-- Six buckets of `0.155` and one of `0.07` in tenths: all seven are rounded up. -/
def sevenUp : Histogram Float :=
  ⟨[31, 31, 31, 31, 31, 31, 14, 0], [0, 1, 2, 3, 4, 5, 6, 7, 8]⟩

/-- The largest amount of two tenths cannot take an excess of three, so eleven tenths are left. -/
theorem StepFit.sum_units_sevenUp : ∃ fit,
    ofProbabilities? sevenUp.edges (sevenUp.shares sevenUp.size) 1 = some fit ∧
      fit.places = 1 ∧ fit.units = [2, 2, 2, 2, 2, 0, 1, 0] ∧ sum fit.units = 11 := by
  have hunits : quantize (sevenUp.shares sevenUp.size) (min 1 maxDecimalPlaces) =
      [2, 2, 2, 2, 2, 0, 1, 0] := by decide +kernel
  have hlength : sevenUp.edges.length = (sevenUp.shares sevenUp.size).length + 1 := by
    rw [Histogram.length_shares]
    rfl
  exact ⟨_, dif_pos ⟨List.cons_ne_nil _ _, hlength⟩, rfl, hunits, congrArg sum hunits⟩

end

end FairProgram
