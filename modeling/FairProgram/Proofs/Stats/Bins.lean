import FairProgram.Proofs.Stats.Counts
import FairProgram.Proofs.Stats.Exact
import Mathlib

/-!
# Equal-width bins in exact arithmetic

In exact arithmetic the position of a value in the range of its column tells its bin, so that the
edges have nothing to correct (`locate_evenlySpaced`). An equal-width histogram counts every value
once, in the bin that holds it (`equalWidth_isEqualWidth`).
-/

namespace FairProgram.Stats

open Scalar

/-- The range that equal-width bins of values divide. -/
inductive Spans {K : Type} [Field K] [LinearOrder K] : List K → K → K → Prop
  | empty : Spans [] 0 1
  | constant {values : List K} {v : K} (ne_nil : values ≠ []) (eq : ∀ w ∈ values, w = v) :
    Spans values (v - 1 / 2) (v + 1 / 2)
  | spread {values : List K} {low high : K} (low_mem : low ∈ values) (high_mem : high ∈ values)
    (lt : low < high) (bounds : ∀ w ∈ values, low ≤ w ∧ w ≤ high) : Spans values low high

namespace Histogram

/-- A bin holds its left edge and not its right one, except that the last bin holds both. -/
def Holds {K : Type} [Field K] [LinearOrder K] (edges : List K) (bin : Nat) (v : K) : Prop :=
  edges.getD bin 0 ≤ v ∧
    (v < edges.getD (bin + 1) 0 ∨ bin + 2 = edges.length ∧ v = edges.getD (bin + 1) 0)

/-- The bin that the position of a value in the whole range tells, before the edges decide. -/
def position {α : Type} [Scalar α] [Sub α] [Mul α] [Div α] (edges : List α) (bins : Nat)
    (value : α) : Nat :=
  let edge (i : Nat) : α := edges.getD i (ofNat 0)
  min (truncate ((value - edge 0) / (edge bins - edge 0) * ofNat bins)) (bins - 1)

section
variable {K : Type} [Field K] [LinearOrder K]

instance decidableHolds (edges : List K) (bin : Nat) : DecidablePred (Holds edges bin) :=
  fun _ => inferInstanceAs (Decidable (_ ∧ _))

/-- What makes a histogram the equal-width one of its values, in exact arithmetic. -/
structure IsEqualWidth [FloorSemiring K] (values : List K) (bins : Nat) (h : Histogram K) :
    Prop where
  length_edges : h.edges.length = bins + 1
  increasing : h.edges.Pairwise (· < ·)
  span : ∃ low high, Spans values low high ∧ h.edges.head? = some low ∧
    h.edges.getLast? = some high ∧ ∀ i ≤ bins, h.edges.getD i 0 = low + (high - low) / bins * i
  size : h.size = values.length
  counts : h.counts = (List.range bins).map fun bin => values.countP (Holds h.edges bin)
  /-- No bin is out of range, and no value is moved to another bin than its position tells. -/
  located : ∀ v ∈ values, locate h.edges bins v = position h.edges bins v ∧
    position h.edges bins v < bins ∧ Holds h.edges (position h.edges bins v) v

end

-- ---------------------------------------------------------------------------
-- Edges
-- ---------------------------------------------------------------------------

section
variable {K : Type} [Field K] [LinearOrder K] [FloorSemiring K] {low high : K} {bins i j : Nat}

theorem evenlySpaced_eq (low high : K) (hbins : 0 < bins) : evenlySpaced low high (bins + 1) =
    (List.range bins).map (fun i : Nat => low + (high - low) / bins * i) ++ [high] := by
  obtain ⟨more, rfl⟩ := Nat.exists_eq_add_one.mpr hbins
  rfl

theorem getD_evenlySpaced [IsStrictOrderedRing K] (hbins : 0 < bins) (hi : i ≤ bins) :
    (evenlySpaced low high (bins + 1)).getD i 0 = low + (high - low) / bins * i := by
  rw [evenlySpaced_eq low high hbins, List.getD_eq_getElem?_getD]
  obtain hlt | rfl := Nat.lt_or_eq_of_le hi
  · rw [List.getElem?_append_left (by simpa using hlt), List.getElem?_map,
      List.getElem?_range hlt]
    rfl
  · have hne : (i : K) ≠ 0 := by exact_mod_cast hbins.ne'
    rw [List.getElem?_append_right (by simp), List.length_map, List.length_range, Nat.sub_self,
      List.getElem?_cons_zero, Option.getD_some, div_mul_cancel₀ _ hne, add_sub_cancel]

theorem head?_evenlySpaced (hbins : 0 < bins) :
    (evenlySpaced low high (bins + 1)).head? = some low := by
  obtain ⟨more, rfl⟩ := Nat.exists_eq_add_one.mpr hbins
  rw [evenlySpaced_eq low high hbins, List.range_succ_eq_map]
  simp

theorem getLast?_evenlySpaced (hbins : 0 < bins) :
    (evenlySpaced low high (bins + 1)).getLast? = some high := by
  rw [evenlySpaced_eq low high hbins, List.getLast?_concat]

variable [IsStrictOrderedRing K]

theorem getD_lt_getD (hlt : low < high) (hij : i < j) (hj : j ≤ bins) :
    (evenlySpaced low high (bins + 1)).getD i 0 < (evenlySpaced low high (bins + 1)).getD j 0 := by
  have hbins : 0 < bins := by omega
  have hn : (0 : K) < bins := by exact_mod_cast hbins
  rw [getD_evenlySpaced hbins (by omega), getD_evenlySpaced hbins hj]
  have hstep : 0 < (high - low) / bins := div_pos (sub_pos.mpr hlt) hn
  have hij : (i : K) < j := by exact_mod_cast hij
  linarith [mul_lt_mul_of_pos_left hij hstep]

theorem pairwise_evenlySpaced (hlt : low < high) (bins : Nat) :
    (evenlySpaced low high (bins + 1)).Pairwise (· < ·) := by
  rw [List.pairwise_iff_getElem]
  intro i j hi hj hij
  rw [length_evenlySpaced] at hi hj
  have := getD_lt_getD hlt hij (Nat.le_of_lt_succ hj)
  rwa [List.getD_eq_getElem _ _ (by simpa using hi),
    List.getD_eq_getElem _ _ (by simpa using hj)] at this

end

-- ---------------------------------------------------------------------------
-- Bins
-- ---------------------------------------------------------------------------

section
variable {K : Type} [Field K] [LinearOrder K] {edges : List K} {low high v : K} {bins i j : Nat}

/-- The edges correct nothing where the position tells a bin that holds the value. -/
theorem locate_of_holds [FloorSemiring K] (hlen : edges.length = bins + 1)
    (h : Holds edges (position edges bins v) v) :
    locate edges bins v = position edges bins v := by
  have hzero : (ofNat 0 : K) = 0 := Nat.cast_zero
  obtain ⟨hleft, hright⟩ := h
  have hnext : ¬ (position edges bins v + 1 < bins ∧
      edges.getD (position edges bins v + 1) (ofNat 0) ≤ v) := by
    rintro ⟨hmore, hle⟩
    rw [hzero] at hle
    obtain hlt | ⟨hlast, -⟩ := hright
    · exact hlt.not_ge hle
    · omega
  have hthis : ¬ (v < edges.getD (position edges bins v) (ofNat 0) ∧
      0 < position edges bins v) := by
    rw [hzero]
    exact fun hlt => hlt.1.not_ge hleft
  exact (if_neg hthis).trans (if_neg hnext)

variable [FloorSemiring K] [IsStrictOrderedRing K]

theorem holds_position (hlt : low < high) (hbins : 0 < bins) (hlow : low ≤ v) (hhigh : v ≤ high) :
    position (evenlySpaced low high (bins + 1)) bins v < bins ∧
      Holds (evenlySpaced low high (bins + 1))
        (position (evenlySpaced low high (bins + 1)) bins v) v := by
  have hn : (0 : K) < bins := by exact_mod_cast hbins
  have hedge {i : Nat} (hi : i ≤ bins) :
      (evenlySpaced low high (bins + 1)).getD i 0 = low + (high - low) / bins * i :=
    getD_evenlySpaced hbins hi
  set edges := evenlySpaced low high (bins + 1) with hedges
  have hlen : edges.length = bins + 1 := length_evenlySpaced low high (bins + 1)
  set step := (high - low) / bins with hstep
  have hpos : 0 < step := div_pos (sub_pos.mpr hlt) hn
  have hlast : low + step * bins = high := by
    rw [hstep, div_mul_cancel₀ _ hn.ne', add_sub_cancel]
  have hposition : position edges bins v = min ⌊(v - low) / step⌋₊ (bins - 1) := by
    have hscaled : (v - edges.getD 0 0) / (edges.getD bins 0 - edges.getD 0 0) * bins =
        (v - low) / step := by
      rw [hedge (Nat.zero_le bins), hedge le_rfl, hlast, Nat.cast_zero, mul_zero, add_zero, hstep,
        div_div_eq_mul_div, div_mul_eq_mul_div]
    rw [← hscaled, position, ofNat_eq_cast, Nat.cast_zero]
    rfl
  have hfloor := Nat.floor_le (div_nonneg (sub_nonneg.mpr hlow) hpos.le)
  have hnext := Nat.lt_floor_add_one ((v - low) / step)
  rw [le_div_iff₀ hpos] at hfloor
  rw [div_lt_iff₀ hpos] at hnext
  rw [hposition]
  obtain hinner | houter := Nat.lt_or_ge ⌊(v - low) / step⌋₊ bins
  · rw [min_eq_left (by omega)]
    refine ⟨hinner, ?_, .inl ?_⟩
    · rw [hedge hinner.le]
      linarith
    · rw [hedge hinner]
      push_cast
      linarith
  · -- Only the last edge is as many steps away.
    have hend : v = high := by
      have hsteps : (bins : K) * step ≤ ⌊(v - low) / step⌋₊ * step :=
        mul_le_mul_of_nonneg_right (by exact_mod_cast houter) hpos.le
      linarith
    rw [min_eq_right (by omega)]
    refine ⟨by omega, ?_, .inr ⟨by omega, ?_⟩⟩
    · rw [hend, ← hlast, ← hedge le_rfl]
      exact (getD_lt_getD hlt (by omega) le_rfl).le
    · rw [Nat.sub_add_cancel hbins, hedge le_rfl, hlast, hend]

theorem locate_evenlySpaced (hlt : low < high) (hbins : 0 < bins) (hlow : low ≤ v)
    (hhigh : v ≤ high) : locate (evenlySpaced low high (bins + 1)) bins v =
      position (evenlySpaced low high (bins + 1)) bins v :=
  locate_of_holds (length_evenlySpaced _ _ _) (holds_position hlt hbins hlow hhigh).2

/-- No other bin holds a value than one. -/
theorem Holds.eq (hlt : low < high) (hi : Holds (evenlySpaced low high (bins + 1)) i v)
    (hj : Holds (evenlySpaced low high (bins + 1)) j v) (hib : i < bins) (hjb : j < bins) :
    i = j := by
  have hle {i j : Nat} (hi : Holds (evenlySpaced low high (bins + 1)) i v)
      (hj : Holds (evenlySpaced low high (bins + 1)) j v) (hjb : j < bins) : j ≤ i := by
    by_contra hij
    obtain hright | ⟨hlast, -⟩ := hi.2
    · obtain heq | hmore := Nat.eq_or_lt_of_le (show i + 1 ≤ j by omega)
      · exact (hright.trans_le (heq ▸ hj.1)).false
      · exact (hright.trans ((getD_lt_getD hlt hmore hjb.le).trans_le hj.1)).false
    · rw [length_evenlySpaced] at hlast
      omega
  exact le_antisymm (hle hj hi hib) (hle hi hj hjb)

theorem bin?_evenlySpaced (hlt : low < high) (hbins : 0 < bins) (hlow : low ≤ v)
    (hhigh : v ≤ high) : bin? (evenlySpaced low high (bins + 1)) v =
      some (position (evenlySpaced low high (bins + 1)) bins v) := by
  rw [bin?, head?_evenlySpaced hbins, getLast?_evenlySpaced hbins, length_evenlySpaced,
    ← locate_evenlySpaced hlt hbins hlow hhigh]
  exact if_pos ⟨hlow, hhigh⟩

theorem counts_evenlySpaced (hlt : low < high) (hbins : 0 < bins) {values : List K}
    (h : ∀ v ∈ values, low ≤ v ∧ v ≤ high) :
    (ofEdges values (evenlySpaced low high (bins + 1))).counts = (List.range bins).map
      fun bin => values.countP (Holds (evenlySpaced low high (bins + 1)) bin) := by
  rw [ofEdges, length_evenlySpaced, Nat.add_sub_cancel]
  refine List.map_congr_left fun bin hbin => ?_
  rw [List.count, List.countP_filterMap]
  refine List.countP_congr fun v hv => ?_
  obtain ⟨hlow, hhigh⟩ := h v hv
  obtain ⟨hlast, hholds⟩ := holds_position hlt hbins hlow hhigh
  rw [bin?_evenlySpaced hlt hbins hlow hhigh, Option.map_some, Option.getD_some, beq_iff_eq,
    decide_eq_true_iff]
  exact ⟨fun heq => heq ▸ hholds, fun hbin' => hholds.eq hlt hbin' hlast (List.mem_range.mp hbin)⟩

-- ---------------------------------------------------------------------------
-- Equal width
-- ---------------------------------------------------------------------------

theorem span_spans (values : List K) : Spans values (span values).1 (span values).2 ∧
    (span values).1 < (span values).2 ∧
      ∀ v ∈ values, (span values).1 ≤ v ∧ v ≤ (span values).2 := by
  cases hrange : range? values with
  | none =>
    cases values with
    | nil =>
      rw [span, hrange]
      simp only [ofNat_eq_cast, Nat.cast_zero, Nat.cast_one]
      exact ⟨.empty, zero_lt_one, nofun⟩
    | cons first rest => cases hrange
  | some range =>
    obtain ⟨low, high⟩ := range
    obtain ⟨hmin, hmax⟩ := range?_eq_some_iff.mp hrange
    obtain ⟨hlow, hleast⟩ := List.min?_eq_some_iff.mp hmin
    obtain ⟨hhigh, hgreatest⟩ := List.max?_eq_some_iff.mp hmax
    rw [span, hrange]
    simp only [ofNat_eq_cast, Nat.cast_one, Nat.cast_ofNat, beq_iff_eq]
    split_ifs with hsame
    · subst hsame
      have heq : ∀ v ∈ values, v = low := fun v hv =>
        le_antisymm (hgreatest v hv) (hleast v hv)
      refine ⟨.constant (List.ne_nil_of_mem hlow) heq, by linarith, fun v hv => ?_⟩
      rw [heq v hv]
      constructor <;> linarith
    · have hlt : low < high := lt_of_le_of_ne (hleast high hhigh) hsame
      exact ⟨.spread hlow hhigh hlt fun v hv => ⟨hleast v hv, hgreatest v hv⟩, hlt,
        fun v hv => ⟨hleast v hv, hgreatest v hv⟩⟩

theorem bin?_equalWidth {values : List K} (hbins : 0 < bins) (hv : v ∈ values) :
    ∃ bin, bin? (equalWidth values bins).edges v = some bin ∧ bin < bins := by
  obtain ⟨-, hlt, hwithin⟩ := span_spans values
  obtain ⟨hlow, hhigh⟩ := hwithin v hv
  exact ⟨_, bin?_evenlySpaced hlt hbins hlow hhigh, (holds_position hlt hbins hlow hhigh).1⟩

end

/-- An equal-width histogram divides the range of its values evenly and counts each of them once,
in the bin that holds it. -/
theorem equalWidth_isEqualWidth (values : List ℚ) {bins : Nat} (hbins : 0 < bins) :
    IsEqualWidth values bins (equalWidth values bins) := by
  obtain ⟨hspans, hlt, hwithin⟩ := span_spans values
  refine ⟨length_edges_equalWidth values bins, pairwise_evenlySpaced hlt bins,
    ⟨_, _, hspans, head?_evenlySpaced hbins, getLast?_evenlySpaced hbins,
      fun i hi => getD_evenlySpaced hbins hi⟩, ?_,
    counts_evenlySpaced hlt hbins hwithin, fun v hv => ?_⟩
  · refine size_ofEdges_eq fun v hv => ?_
    rw [length_evenlySpaced, Nat.add_sub_cancel]
    exact bin?_equalWidth hbins hv
  · obtain ⟨hlow, hhigh⟩ := hwithin v hv
    exact ⟨locate_evenlySpaced hlt hbins hlow hhigh, holds_position hlt hbins hlow hhigh⟩

def halves : List ℚ :=
  [0, 1 / 2, 1, 3 / 2, 2]

/-- The value on the inner edge is in the second bin, and so is the greatest one. -/
theorem equalWidth_isEqualWidth_halves : 0 < 2 ∧ IsEqualWidth halves 2 (equalWidth halves 2) ∧
    (equalWidth halves 2).counts = [2, 3] :=
  ⟨two_pos, equalWidth_isEqualWidth halves two_pos, by decide +kernel⟩

end Histogram

end FairProgram.Stats
