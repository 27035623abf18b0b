import FairProgram.Partition.Gain
import FairProgram.Proofs.Stats.Bins
import Mathlib

/-!
# Splitting loses no counts

The sides of a split are counted in the bins of the unsplit column, so that their counts add up to
its own, in any arithmetic. In exact arithmetic the shares of the unsplit column are therefore the
weighted means of those of the sides, and as `-x log x` is concave, no split has a negative gain
(`informationGain_nonneg`).
-/

namespace FairProgram

open Scalar Stats

noncomputable instance realLog : HasLog ℝ where
  log := Real.log

-- ---------------------------------------------------------------------------
-- Entropies
-- ---------------------------------------------------------------------------

namespace Stats

theorem sum_map_filter_pos {shares : List ℝ} {term : ℝ → ℝ} (hzero : term 0 = 0)
    (hnonneg : ∀ share ∈ shares, 0 ≤ share) :
    ((shares.filter fun share => 0 < share).map term).sum = (shares.map term).sum := by
  induction shares with
  | nil => rfl
  | cons share rest ih =>
    obtain ⟨hshare, hrest⟩ := List.forall_mem_cons.mp hnonneg
    obtain hpos | rfl := hshare.lt_or_eq
    · rw [List.filter_cons_of_pos (by simpa using hpos), List.map_cons, List.map_cons,
        List.sum_cons, List.sum_cons, ih hrest]
    · rw [List.filter_cons_of_neg (by simp), List.map_cons, List.sum_cons, hzero, zero_add,
        ih hrest]

theorem entropy_of_sum_eq_one {shares : List ℝ} (hsum : shares.sum = 1)
    (hnonneg : ∀ share ∈ shares, 0 ≤ share) :
    entropy shares = (shares.map Real.negMulLog).sum := by
  have hwhole : ¬ total shares ≤ ofNat 0 := by
    rw [total_eq_sum, hsum, ofNat_eq_cast, Nat.cast_zero]
    exact not_le.mpr one_pos
  rw [entropy, if_neg hwhole]
  simp only [total_eq_sum, hsum, div_one, ofNat_eq_cast, Nat.cast_zero]
  exact sum_map_filter_pos Real.negMulLog_zero hnonneg

namespace Histogram

theorem sum_map_div (counts : List Nat) (size : ℝ) :
    (counts.map fun count : Nat => (count : ℝ) / size).sum = Whole.sum counts / size := by
  induction counts with
  | nil => simp
  | cons count counts ih => simp [ih, add_div]

/-- The entropy by the counts; of no counts it is zero. -/
theorem entropy_eq_sum (h : Histogram ℝ) :
    h.entropy = (h.counts.map fun count : Nat => Real.negMulLog (count / h.size)).sum := by
  obtain hsize | hsize := Nat.eq_zero_or_pos h.size
  · have hshares : ∀ share ∈ h.shares h.size, share = 0 := by
      simp [shares, hsize]
    rw [Histogram.entropy, Stats.entropy, if_pos]
    · simp [hsize]
    · rw [total_eq_sum, List.sum_eq_zero hshares, ofNat_eq_cast, Nat.cast_zero]
  · have hshares : h.shares h.size = h.counts.map fun count : Nat => (count : ℝ) / h.size := by
      simp [shares, hsize.ne']
    have hpos : (h.size : ℝ) ≠ 0 := by exact_mod_cast hsize.ne'
    rw [Histogram.entropy, hshares, entropy_of_sum_eq_one, List.map_map]
    · rfl
    · rw [sum_map_div]
      exact div_self hpos
    · simp only [List.forall_mem_map]
      exact fun count _ => by positivity

/-- The part that one bin has in the entropies of two sides is no greater than in that of both
together. -/
theorem weighted_negMulLog_le {low high lows highs : Nat} (hlow : low ≤ lows)
    (hhigh : high ≤ highs) (hpos : 0 < lows + highs) :
    (lows : ℝ) / (lows + highs : ℕ) * Real.negMulLog (low / lows) +
        highs / (lows + highs : ℕ) * Real.negMulLog (high / highs) ≤
      Real.negMulLog ((low + high : ℕ) / (lows + highs : ℕ)) := by
  have hrows : ((lows + highs : ℕ) : ℝ) ≠ 0 := by exact_mod_cast hpos.ne'
  have hshare {count size : Nat} (h : count ≤ size) :
      (size : ℝ) / (lows + highs : ℕ) * (count / size) = count / (lows + highs : ℕ) := by
    obtain rfl | hsize := Nat.eq_zero_or_pos size
    · simp [Nat.le_zero.mp h]
    · have hsize : (size : ℝ) ≠ 0 := by exact_mod_cast hsize.ne'
      field_simp
  have hweights : (lows : ℝ) / (lows + highs : ℕ) + highs / (lows + highs : ℕ) = 1 := by
    rw [← add_div, ← Nat.cast_add, div_self hrows]
  have hconcave := Real.concaveOn_negMulLog.2
    (show (low : ℝ) / lows ∈ Set.Ici 0 from Set.mem_Ici.mpr (by positivity))
    (show (high : ℝ) / highs ∈ Set.Ici 0 from Set.mem_Ici.mpr (by positivity))
    (by positivity) (by positivity) hweights
  simp only [smul_eq_mul] at hconcave
  rwa [hshare hlow, hshare hhigh, ← add_div, ← Nat.cast_add] at hconcave

end Histogram

end Stats

-- ---------------------------------------------------------------------------
-- Gains
-- ---------------------------------------------------------------------------

/-- The subject values of the rows that do not pass a threshold. -/
def sideBelow {α : Type} [LE α] [DecidableLE α] (subject conditioning : List α) (threshold : α) :
    List α :=
  ((subject.zip conditioning).filter fun row => row.2 ≤ threshold).map (·.1)

def sideAbove {α : Type} [LE α] [DecidableLE α] (subject conditioning : List α) (threshold : α) :
    List α :=
  ((subject.zip conditioning).filter fun row => !decide (row.2 ≤ threshold)).map (·.1)

section
variable {α : Type} [LE α] [DecidableLE α] {subject conditioning : List α}

theorem sides_perm (h : subject.length = conditioning.length) (threshold : α) :
    (sideBelow subject conditioning threshold ++ sideAbove subject conditioning threshold).Perm
      subject := by
  rw [sideBelow, sideAbove, ← List.map_append]
  have hrows := List.filter_append_perm (fun row : α × α => row.2 ≤ threshold)
    (subject.zip conditioning)
  have := hrows.map Prod.fst
  rwa [List.map_fst_zip h.le] at this

section
variable [Scalar α] [Add α] [Sub α] [Mul α] [Div α] [LT α] [DecidableLT α] [BEq α]

/-- The counts of the two sides of a split add up to those of the unsplit column in every bin. -/
def CountsAddUp (subject conditioning : List α) (threshold : α) (bins : Nat) : Prop :=
  let parent := Histogram.equalWidth subject bins
  parent.counts = List.zipWith (· + ·)
    (Histogram.ofEdges (sideBelow subject conditioning threshold) parent.edges).counts
    (Histogram.ofEdges (sideAbove subject conditioning threshold) parent.edges).counts

theorem countsAddUp (h : subject.length = conditioning.length) (threshold : α) (bins : Nat) :
    CountsAddUp subject conditioning threshold bins := by
  rw [CountsAddUp, ← Histogram.counts_ofEdges_append,
    Histogram.ofEdges_perm (sides_perm h threshold)]
  rfl

theorem informationGain?_eq [HasLog α] [Neg α] (h : subject.length = conditioning.length)
    (threshold : α) (bins : Nat) : informationGain? subject conditioning threshold bins =
      some (gainOnEdges (Histogram.equalWidth subject bins)
        (sideBelow subject conditioning threshold) (sideAbove subject conditioning threshold)) := by
  rw [informationGain?, if_pos h, informationGain, List.partition_eq_filter_filter]
  rfl

end

end

section
variable {values below above edges : List ℝ}

/-- Rows that are all counted in some bin lose nothing to either side. -/
theorem gainOnEdges_nonneg (hperm : (below ++ above).Perm values)
    (hcounted : ∀ v ∈ values, ∃ bin, Histogram.bin? edges v = some bin ∧ bin < edges.length - 1) :
    0 ≤ gainOnEdges (Histogram.ofEdges values edges) below above := by
  have hside {side : List ℝ} (hsub : side ⊆ below ++ above) :
      (Histogram.ofEdges side edges).size = side.length :=
    Histogram.size_ofEdges_eq fun v hv => hcounted v (hperm.subset (hsub hv))
  have hbelow := hside (List.subset_append_left below above)
  have habove := hside (List.subset_append_right below above)
  have hwhole := hside (List.Subset.refl _)
  rw [← Histogram.ofEdges_perm hperm edges, gainOnEdges]
  split
  · exact Nat.cast_nonneg 0
  rename_i hrows
  have hpos : 0 < below.length + above.length := by
    refine Nat.pos_of_ne_zero fun hzero => hrows ?_
    rw [hzero]
    exact beq_self_eq_true _
  simp only [Histogram.edges_ofEdges, Histogram.entropy_eq_sum, hbelow, habove, hwhole,
    List.length_append, ofNat_eq_cast]
  rw [sub_nonneg]
  simp only [Histogram.ofEdges, List.map_map, Function.comp_def, List.filterMap_append,
    List.count_append, ← List.sum_map_mul_left, ← List.sum_map_add]
  refine List.sum_le_sum fun bin _ => Histogram.weighted_negMulLog_le ?_ ?_ hpos
  · exact List.count_le_length.trans (List.length_filterMap_le _ _)
  · exact List.count_le_length.trans (List.length_filterMap_le _ _)

theorem gainOnEdges_of_empty_side (hperm : (below ++ above).Perm values)
    (hempty : below = [] ∨ above = []) :
    gainOnEdges (Histogram.ofEdges values edges) below above = 0 := by
  rw [← Histogram.ofEdges_perm hperm edges, gainOnEdges]
  split
  · exact Nat.cast_zero
  rename_i hrows
  have hpos : ((below.length + above.length : ℕ) : ℝ) ≠ 0 :=
    fun hzero => hrows (beq_iff_eq.mpr (hzero.trans Nat.cast_zero.symm))
  obtain rfl | rfl := hempty
  · rw [List.length_nil, Nat.zero_add] at *
    simp [div_self hpos, Histogram.edges_ofEdges]
  · rw [List.length_nil, Nat.add_zero] at *
    simp [div_self hpos, Histogram.edges_ofEdges]

end

/-- Splitting a column loses no count. In exact arithmetic it therefore never gains less than
nothing, and it gains nothing where one side has all the rows. -/
theorem informationGain_nonneg {bins : Nat} (hbins : 0 < bins) :
    (∀ (subject conditioning : List Float) (threshold : Float),
      subject.length = conditioning.length → CountsAddUp subject conditioning threshold bins) ∧
    ∀ (subject conditioning : List ℝ) (threshold : ℝ), subject.length = conditioning.length →
      CountsAddUp subject conditioning threshold bins ∧
      ∃ gain, informationGain? subject conditioning threshold bins = some gain ∧ 0 ≤ gain ∧
        (sideBelow subject conditioning threshold = [] ∨
          sideAbove subject conditioning threshold = [] → gain = 0) := by
  refine ⟨fun subject conditioning threshold h => countsAddUp h threshold bins,
    fun subject conditioning threshold h => ⟨countsAddUp h threshold bins, _,
      informationGain?_eq h threshold bins, ?_, gainOnEdges_of_empty_side (sides_perm h threshold)⟩⟩
  refine gainOnEdges_nonneg (sides_perm h threshold) fun v hv => ?_
  rw [length_evenlySpaced, Nat.add_sub_cancel]
  exact Histogram.bin?_equalWidth hbins hv

theorem informationGain_nonneg_apart : 0 < 2 ∧ CountsAddUp ([0, 1] : List Float) [0, 1] 0 2 ∧
    ∃ gain, informationGain? ([0, 1] : List ℝ) [0, 1] 0 2 = some gain ∧ 0 ≤ gain := by
  obtain ⟨hcounts, hgain⟩ := informationGain_nonneg two_pos
  obtain ⟨-, gain, heq, hnonneg, -⟩ := hgain [0, 1] [0, 1] 0 rfl
  exact ⟨two_pos, hcounts [0, 1] [0, 1] 0 rfl, gain, heq, hnonneg⟩

end FairProgram
