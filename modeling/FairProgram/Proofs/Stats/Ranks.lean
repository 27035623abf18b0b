import FairProgram.Proofs.Stats.Exact
import FairProgram.Stats.Distance
import Mathlib

/-!
# Distances from samples in exact arithmetic

Equal values of a sorted sample have different ranks. The last of them tells how many values there
are up to theirs, and the first one how many below it (`exists_rank_last`, `exists_rank_first`), so
that the greatest gap at a rank is the greatest gap of the sample, whatever its order
(`ksDistance?_isGreatest`).
-/

namespace FairProgram.Stats

open Scalar

-- ---------------------------------------------------------------------------
-- Sorted samples
-- ---------------------------------------------------------------------------

section
variable {K : Type} [LinearOrder K] {values sorted : List K} {v : K} {i j : Nat}

theorem insertDecreasing_eq (v : K) (sorted : List K) :
    insertDecreasing v sorted = sorted.orderedInsert (· ≥ ·) v := by
  induction sorted with
  | nil => rfl
  | cons head rest ih =>
    rw [insertDecreasing, List.orderedInsert_cons]
    by_cases h : v < head
    · rw [if_pos h, if_neg (not_le.mpr h), ih]
    · rw [if_neg h, if_pos (not_lt.mp h)]

theorem increasing_eq (values : List K) :
    increasing values = (values.reverse.insertionSort (· ≥ ·)).reverse := by
  rw [increasing, List.insertionSort, List.foldr_reverse]
  congr 2
  exact funext₂ fun sorted v => insertDecreasing_eq v sorted

theorem increasing_perm (values : List K) : (increasing values).Perm values := by
  rw [increasing_eq]
  exact (List.reverse_perm _).trans ((List.perm_insertionSort _ _).trans (List.reverse_perm values))

theorem increasing_sortedLE (values : List K) : (increasing values).SortedLE := by
  rw [increasing_eq, List.sortedLE_reverse, List.sortedGE_iff_pairwise]
  exact List.pairwise_insertionSort _ _

theorem increasing_eq_of_perm {others : List K} (h : others.Perm values) :
    increasing others = increasing values :=
  ((increasing_perm others).trans (h.trans (increasing_perm values).symm)).eq_of_sortedLE
    (increasing_sortedLE others) (increasing_sortedLE values)

-- ---------------------------------------------------------------------------
-- Ranks
-- ---------------------------------------------------------------------------

/-- What holds of a value and of all lesser ones holds of the first values of a sorted sample. -/
theorem getElem_iff_lt_countP {p : K → Bool} (hp : ∀ a b, a ≤ b → p b = true → p a = true)
    (hs : sorted.Pairwise (· ≤ ·)) (hi : i < sorted.length) :
    p sorted[i] = true ↔ i < sorted.countP p := by
  induction sorted generalizing i with
  | nil => exact absurd hi (Nat.not_lt_zero i)
  | cons head rest ih =>
    obtain ⟨hhead, hrest⟩ := List.pairwise_cons.mp hs
    cases hph : p head with
    | true =>
      rw [List.countP_cons_of_pos hph]
      cases i with
      | zero => simp [hph]
      | succ i =>
        rw [List.getElem_cons_succ, ih hrest]
        exact (Nat.succ_lt_succ_iff).symm
    | false =>
      have hnone : ∀ a ∈ head :: rest, ¬ p a = true := by
        intro a ha hpa
        have hle : head ≤ a := (List.mem_cons.mp ha).elim (fun h => h.ge) (hhead a)
        simp [hp head a hle hpa] at hph
      rw [List.countP_eq_zero.mpr hnone]
      exact iff_of_false (hnone _ (List.getElem_mem hi)) (Nat.not_lt_zero i)

theorem lt_countP_le_iff (hs : sorted.Pairwise (· ≤ ·)) (hi : i < sorted.length) (v : K) :
    i < sorted.countP (· ≤ v) ↔ sorted[i] ≤ v := by
  rw [← getElem_iff_lt_countP (by simpa using fun a b => le_trans) hs hi, decide_eq_true_iff]

theorem lt_countP_lt_iff (hs : sorted.Pairwise (· ≤ ·)) (hi : i < sorted.length) (v : K) :
    i < sorted.countP (· < v) ↔ sorted[i] < v := by
  rw [← getElem_iff_lt_countP (by simpa using fun a b => lt_of_le_of_lt) hs hi, decide_eq_true_iff]

/-- The last rank of a value is behind all values up to it. -/
theorem exists_rank_last (hs : sorted.Pairwise (· ≤ ·)) (hv : v ∈ sorted) :
    ∃ (i : Nat) (hi : i < sorted.length), sorted[i] = v ∧ i + 1 = sorted.countP (· ≤ v) := by
  obtain ⟨k, hk, hkv⟩ := List.getElem_of_mem hv
  have hcount : k < sorted.countP (· ≤ v) := (lt_countP_le_iff hs hk v).mpr hkv.le
  obtain ⟨i, hi⟩ := Nat.exists_eq_add_one.mpr (Nat.zero_lt_of_lt hcount)
  have hlt : i < sorted.length := by
    have := List.countP_le_length (p := (· ≤ v)) (l := sorted)
    omega
  refine ⟨i, hlt, le_antisymm ((lt_countP_le_iff hs hlt v).mp (by omega)) ?_, hi.symm⟩
  rw [← hkv]
  exact hs.sortedLE.getElem_le_getElem_of_le (by omega)

/-- The first rank of a value is behind all values below it. -/
theorem exists_rank_first (hs : sorted.Pairwise (· ≤ ·)) (hv : v ∈ sorted) :
    ∃ (i : Nat) (hi : i < sorted.length), sorted[i] = v ∧ i = sorted.countP (· < v) := by
  obtain ⟨k, hk, hkv⟩ := List.getElem_of_mem hv
  have hcount : sorted.countP (· < v) ≤ k :=
    not_lt.mp fun hlt => ((lt_countP_lt_iff hs hk v).mp hlt).ne hkv
  have hlt := hcount.trans_lt hk
  refine ⟨_, hlt, le_antisymm ?_ (not_lt.mp fun h => ?_), rfl⟩
  · exact (hs.sortedLE.getElem_le_getElem_of_le hcount).trans_eq hkv
  · exact (Nat.lt_irrefl _) ((lt_countP_lt_iff hs hlt v).mpr h)

end

-- ---------------------------------------------------------------------------
-- Distances
-- ---------------------------------------------------------------------------

section
variable {K : Type} [Field K] [LinearOrder K]

def shareUpTo (values : List K) (v : K) : K :=
  values.countP (· ≤ v) / values.length

def shareBelow (values : List K) (v : K) : K :=
  values.countP (· < v) / values.length

/-- What a distribution function misses of the sample at one of its values: the step of the sample
there goes from the share of what is below to the share of what is up to the value. -/
inductive IsGap (values : List K) (cdf : K → K) : K → Prop
  | after {v : K} (h : v ∈ values) : IsGap values cdf (shareUpTo values v - cdf v)
  | before {v : K} (h : v ∈ values) : IsGap values cdf (cdf v - shareBelow values v)

variable {values : List K} {cdf : K → K} {gap : K} {i : Nat}

/-- The greater ones of the gaps after and before each rank of the sorted values. -/
def rankGaps (values : List K) (cdf : K → K) : List K :=
  (increasing values).zipIdx.map fun (v, i) =>
    max (((i + 1 : ℕ) : K) / values.length - cdf v) (cdf v - (i : K) / values.length)

theorem mem_rankGaps : gap ∈ rankGaps values cdf ↔
    ∃ (i : Nat) (hi : i < (increasing values).length),
      gap = max (((i + 1 : ℕ) : K) / values.length - cdf (increasing values)[i])
        (cdf (increasing values)[i] - (i : K) / values.length) := by
  simp only [rankGaps, List.mem_map, Prod.exists, List.mem_zipIdx_iff_getElem?,
    List.getElem?_eq_some_iff]
  constructor
  · rintro ⟨v, i, ⟨hi, hat⟩, hgap⟩
    exact ⟨i, hi, hat ▸ hgap.symm⟩
  · rintro ⟨i, hi, hgap⟩
    exact ⟨_, i, ⟨hi, rfl⟩, hgap.symm⟩

/-- A gap of the sample is one at the last or at the first rank of its value. -/
theorem IsGap.exists_rankGap (h : IsGap values cdf gap) : ∃ g ∈ rankGaps values cdf, gap ≤ g := by
  have hs := (increasing_sortedLE values).pairwise
  have hperm := increasing_perm values
  cases h with
  | @after v hv =>
    obtain ⟨i, hi, hat, hcount⟩ := exists_rank_last hs (hperm.mem_iff.mpr hv)
    refine ⟨_, mem_rankGaps.mpr ⟨i, hi, rfl⟩, ?_⟩
    rw [hat, hcount, hperm.countP_eq]
    exact le_max_left _ _
  | @before v hv =>
    obtain ⟨i, hi, hat, hcount⟩ := exists_rank_first hs (hperm.mem_iff.mpr hv)
    refine ⟨_, mem_rankGaps.mpr ⟨i, hi, rfl⟩, ?_⟩
    rw [hat, hcount, hperm.countP_eq]
    exact le_max_right _ _

variable [IsStrictOrderedRing K]

/-- The rank of a value lies between the numbers of values below it and up to it. -/
theorem rank_between (hi : i < (increasing values).length) :
    ((i + 1 : ℕ) : K) / values.length ≤ shareUpTo values (increasing values)[i] ∧
      shareBelow values (increasing values)[i] ≤ (i : K) / values.length := by
  have hs := (increasing_sortedLE values).pairwise
  have hupTo := (lt_countP_le_iff hs hi (increasing values)[i]).mpr le_rfl
  have hbelow := not_lt.mp (mt (lt_countP_lt_iff hs hi (increasing values)[i]).mp (lt_irrefl _))
  rw [(increasing_perm values).countP_eq] at hupTo hbelow
  constructor
  · exact div_le_div_of_nonneg_right (by exact_mod_cast hupTo) (Nat.cast_nonneg _)
  · exact div_le_div_of_nonneg_right (by exact_mod_cast hbelow) (Nat.cast_nonneg _)

/-- No gap at a rank is greater than all gaps of the sample. -/
theorem exists_gap_of_mem_rankGaps {g : K} (h : g ∈ rankGaps values cdf) :
    ∃ gap, IsGap values cdf gap ∧ g ≤ gap := by
  obtain ⟨i, hi, rfl⟩ := mem_rankGaps.mp h
  have hmem := (increasing_perm values).mem_iff.mp (List.getElem_mem hi)
  obtain ⟨hupTo, hbelow⟩ := rank_between (K := K) hi
  obtain hmax | hmax := max_choice (((i + 1 : ℕ) : K) / values.length - cdf (increasing values)[i])
    (cdf (increasing values)[i] - (i : K) / values.length)
  · exact ⟨_, .after hmem, hmax.trans_le (sub_le_sub_right hupTo _)⟩
  · exact ⟨_, .before hmem, hmax.trans_le (sub_le_sub_left hbelow _)⟩

end

theorem foldl_greatest_isGreatest {K : Type} [LinearOrder K] (start : K) (gaps : List K) :
    IsGreatest (insert start {gap | gap ∈ gaps}) (gaps.foldl greatest start) := by
  have hmax : (start :: gaps).max? = some (gaps.foldl greatest start) := by
    rw [List.max?_cons', (funext₂ greatest_eq_max : (greatest : K → K → K) = max)]
  obtain ⟨hmem, hle⟩ := List.max?_eq_some_iff.mp hmax
  exact ⟨List.mem_cons.mp hmem, fun gap hgap => hle gap (List.mem_cons.mpr hgap)⟩

section
variable {K : Type} [Field K] [LinearOrder K] [FloorSemiring K] {values : List K}

theorem ksDistance_eq (values : List K) (cdf : K → K) :
    ksDistance values cdf = (rankGaps values cdf).foldl greatest 0 := by
  simp only [ksDistance, rankGaps, ofNat_eq_cast, greatest_eq_max, Nat.cast_zero]

/-- The distance of a sample from a distribution function is the greatest gap between them, or zero
where no gap is positive, and does not depend on the order of the sample. -/
theorem ksDistance?_isGreatest [IsStrictOrderedRing K] (hne : values ≠ []) (cdf : K → K) :
    ∃ distance, ksDistance? values cdf = some distance ∧
      IsGreatest (insert 0 {gap | IsGap values cdf gap}) distance ∧
      ∀ others : List K, others.Perm values → ksDistance? others cdf = some distance := by
  have hsome {others : List K} (h : others ≠ []) :
      ksDistance? others cdf = some ((rankGaps others cdf).foldl greatest 0) := by
    rw [ksDistance?, if_neg (by simpa using h), ksDistance_eq]
  obtain ⟨hmem, hle⟩ := foldl_greatest_isGreatest 0 (rankGaps values cdf)
  set distance := (rankGaps values cdf).foldl greatest 0
  have hbound : ∀ gap, IsGap values cdf gap → gap ≤ distance := fun gap hgap => by
    obtain ⟨g, hg, hgle⟩ := hgap.exists_rankGap
    exact hgle.trans (hle (.inr hg))
  refine ⟨distance, hsome hne, ⟨?_, ?_⟩, fun others hperm => ?_⟩
  · obtain hzero | hrank := hmem
    · exact .inl hzero
    · obtain ⟨gap, hgap, hgle⟩ := exists_gap_of_mem_rankGaps hrank
      exact .inr (le_antisymm hgle (hbound gap hgap) ▸ hgap)
  · rintro gap (rfl | hgap)
    · exact hle (.inl rfl)
    · exact hbound gap hgap
  · have hranks : rankGaps others cdf = rankGaps values cdf := by
      rw [rankGaps, rankGaps, increasing_eq_of_perm hperm, hperm.length_eq]
    have hothers : others ≠ [] := fun hnil => hne (List.perm_nil.mp (hnil ▸ hperm.symm))
    rw [hsome hothers, hranks]

end

/-- The sample has a value twice, so that the gaps at it are those of different ranks. -/
def tied : List ℚ :=
  [2, 1, 2, 0]

theorem ksDistance?_isGreatest_tied : tied ≠ [] ∧
    (∃ distance, ksDistance? tied (· / 2) = some distance ∧
      IsGreatest (insert 0 {gap | IsGap tied (· / 2) gap}) distance ∧
      ∀ others : List ℚ, others.Perm tied → ksDistance? others (· / 2) = some distance) ∧
    ksDistance? tied (· / 2) = some (1 / 2) :=
  have hne : tied ≠ [] := List.cons_ne_nil _ _
  ⟨hne, ksDistance?_isGreatest hne (· / 2), by decide +kernel⟩

end FairProgram.Stats
