import FairProgram.Partition.Gain
import FairProgram.Proofs.Double.Nonneg
import FairProgram.Proofs.Stats.Counts
import Mathlib

/-!
# Entropies and gains are numbers

Counts of no more rows than a word can tell have shares in the unit interval, none of them so small
that its logarithm leaves the doubles. A sum of shares or of logarithms of shares stops growing
where its terms are too small to count, so that entropies are bounded for any number of bins
(`entropy_between`) and the gain of a split is never infinity less infinity
(`gainOnEdges_isNaN`). Of the logarithm no more is needed than where it lies on the unit interval.
-/

namespace FairProgram

open Double Scalar

/-- Where the logarithm of a share lies: not above zero and, the least positive double being
`2 ^ -1074`, not below -1024. -/
def LogBounded : Prop :=
  ∀ x : Float, 0 < x → x ≤ 1 → -1024 ≤ Float.log x ∧ Float.log x ≤ 0

-- ---------------------------------------------------------------------------
-- Sums
-- ---------------------------------------------------------------------------

/-- A sum that starts below a limit which its terms are too small to change stays there. -/
theorem foldl_add_between {limit most : Float} (habsorb : limit + most ≤ limit)
    {values : List Float} (h : ∀ v ∈ values, 0 ≤ v ∧ v ≤ most) {start : Float}
    (hstart : 0 ≤ start) (hle : start ≤ limit) : start ≤ values.foldl (· + ·) start ∧
      values.foldl (· + ·) start ≤ limit ∧ ∀ v ∈ values, v ≤ values.foldl (· + ·) start := by
  induction values generalizing start with
  | nil => exact ⟨le_self (isNaN_of_nonneg hstart), hle, nofun⟩
  | cons v rest ih =>
    obtain ⟨⟨hv, hvmost⟩, hrest⟩ := List.forall_mem_cons.mp h
    have hsum : start ≤ start + v := le_add_right hstart hv
    have hnext : start + v ≤ limit := le_trans (add_le hstart hv hle hvmost) habsorb
    obtain ⟨hfrom, hto, hall⟩ := ih hrest (le_trans hstart hsum) hnext
    exact ⟨le_trans hsum hfrom, hto,
      List.forall_mem_cons.mpr ⟨le_trans (le_add_left hstart hv) hfrom, hall⟩⟩

theorem total_between {limit most : Float} (habsorb : limit + most ≤ limit)
    (hlimit : 0 ≤ limit) {values : List Float} (h : ∀ v ∈ values, 0 ≤ v ∧ v ≤ most) :
    0 ≤ total values ∧ total values ≤ limit ∧ ∀ v ∈ values, v ≤ total values :=
  foldl_add_between habsorb h (ofNat_nonneg 0) hlimit

namespace Stats

-- ---------------------------------------------------------------------------
-- Entropies
-- ---------------------------------------------------------------------------

/-- One row among as many as a word can tell. -/
def leastShare : Float := 1 / Float.ofNat Whole.maxWord

def wholeLimit : Float := Float.ofNat (2 ^ 54)

def entropyLimit : Float := Float.ofNat (2 ^ 64)

/-- What shares of counted rows are like. -/
def IsShare (share : Float) : Prop :=
  0 ≤ share ∧ share ≤ 1 ∧ (0 < share → leastShare ≤ share)

theorem term_between (hlog : LogBounded) {x : Float} (hpos : 0 < x) (hone : x ≤ 1) :
    0 ≤ -x * Float.log x ∧ -x * Float.log x ≤ 1024 := by
  obtain ⟨hleast, hmost⟩ := hlog x hpos hone
  obtain ⟨hf, hv⟩ : (1024 : Float).isFinite = true ∧ value 1024 = (1024 : ℕ) :=
    value_ofNat (by norm_num)
  have hfneg : (-1024 : Float).isFinite = true := (isFinite_neg 1024).trans hf
  have hfx := isFinite_of_le (le_of_lt hpos) isFinite_one hone
  have hflog := isFinite_of_between hfneg isFinite_zero hleast hmost
  have hmul := mul_rounds ((isFinite_neg x).trans hfx) hflog
  have hpos := value_pos hfx hpos
  rw [le_iff_value hfx isFinite_one, value_one] at hone
  rw [le_iff_value hfneg hflog, value_neg, hv] at hleast
  rw [le_iff_value hflog isFinite_zero, value_zero] at hmost
  rw [value_neg, neg_mul] at hmul
  push_cast at hleast hv
  have hlimit : Rounds 1024 1024 := hv ▸ rounds_value hf
  exact ⟨rounds_zero.le hmul (by nlinarith), hmul.le hlimit (by nlinarith)⟩

theorem entropy_between (hlog : LogBounded) {shares : List Float}
    (h : ∀ share ∈ shares, IsShare share) :
    0 ≤ entropy shares ∧ entropy shares ≤ entropyLimit := by
  have habsorb : wholeLimit + 1 ≤ wholeLimit := by decide +kernel
  obtain ⟨hnonneg, hlimit, hall⟩ := total_between habsorb (ofNat_nonneg _)
    fun share hs => ⟨(h share hs).1, (h share hs).2.1⟩
  unfold entropy
  simp only
  split
  · exact ⟨ofNat_nonneg 0, ofNat_nonneg _⟩
  rename_i hwhole
  have hpos : 0 < total shares := lt_of_not_le (isNaN_of_nonneg hnonneg) rfl hwhole
  have hfinite : (total shares).isFinite = true :=
    isFinite_of_le hnonneg (by decide +kernel) hlimit
  have hterms : ∀ term ∈ (shares.filter fun p => ofNat 0 < p).map
      (fun p => -(p / total shares) * HasLog.log (p / total shares)),
      0 ≤ term ∧ term ≤ 1024 := by
    intro term hterm
    obtain ⟨share, hshare, rfl⟩ := List.mem_map.mp hterm
    obtain ⟨hmem, hshare⟩ := List.mem_filter.mp hshare
    have hshare : 0 < share := of_decide_eq_true hshare
    obtain ⟨hs, hone, hleast⟩ := h share hmem
    have hmost := (div_mem_unit hs hpos hfinite (hall share hmem)).2
    have hle : leastShare / wholeLimit ≤ share / total shares :=
      div_le (by decide +kernel) (isFinite_of_le hs isFinite_one hone) (hleast hshare) hpos
        (by decide +kernel) hlimit
    exact term_between hlog (lt_of_lt_of_le (by decide +kernel) hle) hmost
  have habsorb : entropyLimit + 1024 ≤ entropyLimit := by decide +kernel
  obtain ⟨hnonneg, hlimit, -⟩ := total_between habsorb (ofNat_nonneg _) hterms
  exact ⟨hnonneg, hlimit⟩

-- ---------------------------------------------------------------------------
-- Counts
-- ---------------------------------------------------------------------------

namespace Histogram

theorem isShare_div {count size : Nat} (h : count ≤ size) (hpos : 0 < size)
    (hmax : size ≤ Whole.maxWord) : IsShare (Float.ofNat count / Float.ofNat size) := by
  have hfinite := isFinite_word hmax
  have hsize : 0 < Float.ofNat size := ofNat_pos hpos
  obtain ⟨hnonneg, hone⟩ := div_mem_unit (ofNat_nonneg count) hsize hfinite (ofNat_le h)
  refine ⟨hnonneg, hone, fun hshare => ?_⟩
  have hcount : 1 ≤ count := by
    by_contra hzero
    obtain rfl : count = 0 := by omega
    have hle : Float.ofNat 0 / Float.ofNat size ≤ 0 / 1 :=
      div_le (ofNat_nonneg 0) isFinite_zero (le_self rfl) (by decide +kernel) hfinite
        (ofNat_le hpos)
    exact not_le_of_lt (lt_of_lt_of_le hshare hle) (by decide +kernel)
  exact div_le (ofNat_nonneg 1) (isFinite_word (h.trans hmax)) (ofNat_le hcount) hsize
    (isFinite_word le_rfl) (ofNat_le hmax)

theorem entropy_between (hlog : LogBounded) {h : Histogram Float} (hmax : h.size ≤ Whole.maxWord) :
    0 ≤ h.entropy ∧ h.entropy ≤ entropyLimit := by
  refine Stats.entropy_between hlog fun share hshare => ?_
  obtain ⟨count, hcount, rfl⟩ := List.mem_map.mp hshare
  have hle : count ≤ h.size := List.le_sum_of_mem hcount
  split
  · exact ⟨ofNat_nonneg 0, ofNat_le (Nat.zero_le 1), fun hpos => absurd hpos (by decide +kernel)⟩
  · rename_i hne
    exact isShare_div hle (Nat.pos_of_ne_zero hne) hmax

theorem size_equalWidth_le (values : List Float) (bins : Nat) :
    (equalWidth values bins).size ≤ values.length :=
  size_ofEdges_le _ _

end Histogram

end Stats

open Stats

theorem gainOnEdges_isNaN (hlog : LogBounded) {parent : Histogram Float} {below above : List Float}
    (hparent : parent.size ≤ Whole.maxWord)
    (hrows : below.length + above.length ≤ Whole.maxWord) :
    (gainOnEdges parent below above).isNaN = false := by
  unfold gainOnEdges
  simp only
  split
  · rfl
  rename_i hne
  have hlimit : entropyLimit.isFinite = true := by decide +kernel
  have hfinite := isFinite_word hrows
  have hpos : 0 < below.length + above.length := by
    by_contra hzero
    obtain hzero : below.length + above.length = 0 := by omega
    exact hne (by rw [hzero]; decide +kernel)
  have hpos : 0 < Float.ofNat (below.length + above.length) := ofNat_pos hpos
  have hside (side : List Float) (hle : side.length ≤ below.length + above.length) :
      0 ≤ Float.ofNat side.length / Float.ofNat (below.length + above.length) *
          (Histogram.ofEdges side parent.edges).entropy ∧
        Float.ofNat side.length / Float.ofNat (below.length + above.length) *
          (Histogram.ofEdges side parent.edges).entropy ≤ 1 * entropyLimit := by
    obtain ⟨hshare, hone⟩ := div_mem_unit (ofNat_nonneg side.length) hpos hfinite (ofNat_le hle)
    obtain ⟨hentropy, hmost⟩ := Histogram.entropy_between hlog
      (((Histogram.size_ofEdges_le side parent.edges).trans hle).trans hrows)
    have hn := (mul_rounds (isFinite_of_le hshare isFinite_one hone)
      (isFinite_of_le hentropy hlimit hmost)).isNaN
    exact ⟨nonneg_mul hshare hentropy hn, mul_le hshare hentropy hone hmost hn (by decide +kernel)⟩
  obtain ⟨hb, hble⟩ := hside below (Nat.le_add_right _ _)
  obtain ⟨ha, hale⟩ := hside above (Nat.le_add_left _ _)
  obtain ⟨hentropy, hmost⟩ := Histogram.entropy_between hlog hparent
  have hsum := add_le hb ha hble hale
  have hnonneg := le_trans hb (le_add_right hb ha)
  exact (sub_rounds (isFinite_of_le hentropy hlimit hmost)
    (isFinite_of_le hnonneg (by decide +kernel) hsum)).isNaN

end FairProgram
