import FairProgram.Proofs.Partition.Observations

/-!
# Refinements partition the rows

The positions in a bucket of a refinement are those whose conditioning value lies in the range of
the bucket, in increasing order. The ranges are contiguous and cover the line, so every position
of finite columns is in exactly one bucket (`refine_partitions`).
-/

namespace FairProgram

/-- A refinement whose thresholds part the rows of a conditioning column. -/
structure Refinement.Partitions (p : Params) (conditioning : List Float) (r : Refinement) :
    Prop where
  cuts : 1 ≤ r.thresholds.length ∧ r.thresholds.length ≤ p.maxCuts
  increasing : r.thresholds.Pairwise (· < ·)
  length_buckets : r.buckets.length = r.thresholds.length + 1
  ranges : r.buckets.map (·.range) = Range.between (-1 / 0) r.thresholds (1 / 0)
  ordered : ∀ b ∈ r.buckets, b.rows.positions.Pairwise (· < ·)
  once : (r.buckets.flatMap (·.rows.positions)).Perm (List.range conditioning.length)
  mem_positions : ∀ b ∈ r.buckets, ∀ position (h : position < conditioning.length),
    position ∈ b.rows.positions ↔ b.range.contains conditioning[position] = true
  supported : ∀ b ∈ r.buckets, p.Supports b.rows.positions.length conditioning.length

namespace Partition

variable {p : Params} {subject conditioning : List Float} {rows : List Observation}
  {r : Refinement}

theorem Refines.positions_eq (h : Refines p rows r) (ho : Observes subject conditioning rows)
    {b : RefinedBucket} (hb : b ∈ r.buckets) :
    b.rows.positions = conditioning.findIdxs b.range.contains := by
  rw [(h.fitted b hb).1, rowsIn, ho.positions_filter]

theorem Refines.mem_positions_iff (h : Refines p rows r)
    (ho : Observes subject conditioning rows) {b : RefinedBucket} (hb : b ∈ r.buckets)
    {position : Nat} : position ∈ b.rows.positions ↔
      ∃ hlt : position < conditioning.length, b.range.contains conditioning[position] = true := by
  rw [h.positions_eq ho hb, List.mem_findIdxs_iff_exists_getElem_pos]

/-- Thresholds between the buckets are bounds of the chain of their ranges. -/
theorem Refines.ranges_eq (h : Refines p rows r) :
    r.buckets.map (·.range) = Range.between (-1 / 0) r.thresholds (1 / 0) := by
  have hne : r.buckets.map (·.range) ≠ [] := by
    simpa using List.ne_nil_of_length_pos (Nat.zero_lt_of_lt h.several)
  have heq := h.chain.eq_between hne
  rwa [← List.map_dropLast, List.map_map] at heq

theorem Refines.increasing (h : Refines p rows r) : r.thresholds.Pairwise (· < ·) := by
  have hbounds := h.chain.pairwise_bounds
  rw [h.ranges_eq, Range.map_upper_between, ← List.cons_append] at hbounds
  exact (List.pairwise_cons.mp (List.pairwise_append.mp hbounds).1).2

/-- Buckets share no position, since their ranges share no value. -/
theorem Refines.nodup_positions (h : Refines p rows r) (ho : Observes subject conditioning rows) :
    (r.buckets.flatMap (·.rows.positions)).Nodup := by
  refine List.nodup_flatMap.mpr ⟨fun b hb => h.positions_eq ho hb ▸ List.nodup_findIdxs, ?_⟩
  refine (List.pairwise_map.mp h.chain.pairwise_disjoint).imp_of_mem ?_
  intro b b' hb hb' hdisjoint position hposition hposition'
  obtain ⟨_, hin⟩ := (h.mem_positions_iff ho hb).mp hposition
  obtain ⟨_, hin'⟩ := (h.mem_positions_iff ho hb').mp hposition'
  exact hdisjoint _ hin hin'

theorem Refines.mem_flatMap_positions_iff (h : Refines p rows r)
    (ho : Observes subject conditioning rows)
    (hc : ∀ v ∈ conditioning, v.isFinite = true) {position : Nat} :
    position ∈ r.buckets.flatMap (·.rows.positions) ↔ position < conditioning.length := by
  rw [List.mem_flatMap]
  constructor
  · rintro ⟨b, hb, hposition⟩
    exact ((h.mem_positions_iff ho hb).mp hposition).1
  · intro hlt
    have hfinite := hc _ (List.getElem_mem hlt)
    obtain ⟨range, hrange, hin⟩ := h.chain.exists_contains (Double.negInfinity_lt hfinite)
      (Double.le_of_lt (Double.lt_infinity hfinite))
    obtain ⟨b, hb, rfl⟩ := List.mem_map.mp hrange
    exact ⟨b, hb, (h.mem_positions_iff ho hb).mpr ⟨hlt, hin⟩⟩

theorem Refines.partitions (h : Refines p rows r) (ho : Observes subject conditioning rows)
    (hc : ∀ v ∈ conditioning, v.isFinite = true) (hcuts : r.thresholds.length ≤ p.maxCuts) :
    r.Partitions p conditioning where
  cuts := by
    have hlen : r.thresholds.length = r.buckets.length - 1 := by simp [Refinement.thresholds]
    have := h.several
    omega
  increasing := h.increasing
  length_buckets := by
    have hlen := congrArg List.length h.ranges_eq
    rwa [List.length_map, Range.length_between] at hlen
  ranges := h.ranges_eq
  ordered _ hb := h.positions_eq ho hb ▸ List.pairwise_findIdxs
  once := (List.perm_ext_iff_of_nodup (h.nodup_positions ho) List.nodup_range).mpr fun _ =>
    (h.mem_flatMap_positions_iff ho hc).trans List.mem_range.symm
  mem_positions _ hb _ hlt := (h.mem_positions_iff ho hb).trans (exists_prop_of_true hlt)
  supported b hb := by
    rw [(h.fitted b hb).1, List.length_map, ← ho.length_conditioning]
    exact h.supported b hb

/-- Values so far apart that no bin holds any of them, which leaves no logarithm to take. -/
def farApart : List Float := [-1e308, 1e308]

def oneCut : Params := { informationGain := 0, maxCuts := 1 }

/-- Refining against a finite column fails at fits only, and a refinement parts the rows. -/
theorem refine_partitions (p : Params) {subject conditioning : List Float}
    (hlen : subject.length = conditioning.length)
    (hc : ∀ v ∈ conditioning, v.isFinite = true) :
    (∀ error, refine p subject conditioning = .error error → ∃ e, error = .fit e) ∧
      ∀ r, refine p subject conditioning = .ok (some r) → r.Partitions p conditioning := by
  obtain ⟨rows, hrows, ho⟩ := observations?_ok hlen
  obtain ⟨thresholds, segments, hinto, hcuts, hnone | ⟨buckets, hsome, hranges, hr⟩ |
    ⟨_, -, -, -, e, herror, -⟩⟩ := refine_cases (p := p) hrows (ho.finite_conditioning hc)
  · rw [hnone]
    exact ⟨nofun, nofun⟩
  · rw [hsome]
    refine ⟨nofun, ?_⟩
    rintro r ⟨⟩
    refine hr.partitions ho hc ?_
    have huppers := congrArg (fun ranges => ranges.dropLast.map (·.upper)) hranges
    simp only [← List.map_dropLast, List.map_map] at huppers
    have hthresholds : thresholds = Refinement.thresholds ⟨buckets⟩ :=
      hinto.thresholds_eq.trans huppers
    rwa [← hthresholds]
  · rw [herror]
    refine ⟨?_, nofun⟩
    rintro _ ⟨⟩
    exact ⟨e, rfl⟩

theorem refine_partitions_farApart : ∃ r, refine oneCut farApart [0, 1] = .ok (some r) ∧
    r.buckets.map (·.rows.positions) = [[0], [1]] ∧ r.Partitions oneCut [0, 1] := by
  have hpositions : (refine oneCut farApart [0, 1]).toOption.join.map
      (·.buckets.map (·.rows.positions)) = some [[0], [1]] := by decide +kernel
  have hlen : farApart.length = [(0 : Float), 1].length := by decide +kernel
  cases h : refine oneCut farApart [0, 1] with
  | error e => simp [h, Except.toOption] at hpositions
  | ok result =>
    cases result with
    | none => simp [h, Except.toOption] at hpositions
    | some r =>
      exact ⟨r, rfl, by simpa [h, Except.toOption] using hpositions,
        (refine_partitions oneCut hlen (by decide)).2 r h⟩

end Partition

end FairProgram
