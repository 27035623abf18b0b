import FairProgram.Proofs.Double.Order

/-!
# Ranges that cover the line

A chain of ranges leads from one bound to another, each range starting where the one before it ends
(`Range.Chain`). Every value between the outer bounds lies in a range of the chain, a range may be
split in place, and the inner bounds fix which values lie in which range.
-/

namespace FairProgram.Range

variable {r : Range} {v t : Float}

theorem contains_iff : r.contains v = true ↔ r.lower < v ∧ v ≤ r.upper := by
  simp [contains]

theorem unbounded_contains (h : v.isFinite = true) : unbounded.contains v = true :=
  contains_iff.mpr ⟨Double.negInfinity_lt h, Double.le_of_lt (Double.lt_infinity h)⟩

theorem splitAt?_eq_some (hl : r.lower < t) (hu : t < r.upper) :
    r.splitAt? t = some (⟨r.lower, t⟩, ⟨t, r.upper⟩) := by
  simp [splitAt?, ofBounds?, hl, hu]

/-- The values of the lower part of a split are those of the range up to the threshold. -/
theorem contains_below (hu : t < r.upper) :
    (⟨r.lower, t⟩ : Range).contains v = (r.contains v && decide (v ≤ t)) := by
  rw [Bool.eq_iff_iff, Bool.and_eq_true, decide_eq_true_iff, contains_iff, contains_iff]
  constructor
  · rintro ⟨hv, hvt⟩
    exact ⟨⟨hv, Double.le_of_lt (Double.lt_of_le_of_lt hvt hu)⟩, hvt⟩
  · rintro ⟨⟨hv, -⟩, hvt⟩
    exact ⟨hv, hvt⟩

theorem contains_above (hl : r.lower < t) :
    (⟨t, r.upper⟩ : Range).contains v = (r.contains v && !decide (v ≤ t)) := by
  rw [Bool.eq_iff_iff, Bool.and_eq_true, contains_iff, contains_iff, Bool.not_eq_true',
    decide_eq_false_iff_not]
  constructor
  · rintro ⟨hv, hvu⟩
    exact ⟨⟨Double.lt_trans hl hv, hvu⟩, Double.not_le_of_lt hv⟩
  · rintro ⟨⟨hv, hvu⟩, hvt⟩
    exact ⟨Double.lt_of_not_le (Double.le_iff.mp hvu).1 (Double.lt_iff.mp hl).2.1 hvt, hvu⟩

-- ---------------------------------------------------------------------------
-- Chains
-- ---------------------------------------------------------------------------

/-- The ranges from a first bound to a last, with thresholds between them. -/
def between : Float → List Float → Float → List Range
  | first, [], last => [⟨first, last⟩]
  | first, threshold :: rest, last => ⟨first, threshold⟩ :: between threshold rest last

@[simp] theorem length_between (first : Float) (thresholds : List Float) (last : Float) :
    (between first thresholds last).length = thresholds.length + 1 := by
  induction thresholds generalizing first with
  | nil => rfl
  | cons threshold rest ih => rw [between, List.length_cons, ih, List.length_cons]

theorem map_upper_between (first : Float) (thresholds : List Float) (last : Float) :
    (between first thresholds last).map (·.upper) = thresholds ++ [last] := by
  induction thresholds generalizing first with
  | nil => rfl
  | cons threshold rest ih => rw [between, List.map_cons, ih, List.cons_append]

/-- Non-empty ranges that lead from the first bound to the last. -/
inductive Chain : Float → List Range → Float → Prop
  | nil (bound : Float) : Chain bound [] bound
  | cons {lower upper last : Float} {rest : List Range} :
      lower < upper → Chain upper rest last → Chain lower (⟨lower, upper⟩ :: rest) last

namespace Chain

variable {first last : Float} {ranges others : List Range}

theorem unbounded : Chain (-1 / 0) [Range.unbounded] (1 / 0) :=
  .cons (by decide) (.nil _)

theorem ne_nil (h : Chain first ranges last) (hlt : first < last) : ranges ≠ [] := by
  rintro rfl
  cases h
  exact Double.not_le_of_lt hlt (Double.le_of_lt hlt)

theorem append_iff : Chain first (ranges ++ others) last ↔
    ∃ middle, Chain first ranges middle ∧ Chain middle others last := by
  induction ranges generalizing first with
  | nil =>
    constructor
    · exact fun h => ⟨first, .nil first, h⟩
    · rintro ⟨_, hnil, h⟩
      cases hnil
      exact h
  | cons r rest ih =>
    constructor
    · intro h
      cases h with
      | cons hlt h =>
        obtain ⟨middle, hr, ho⟩ := ih.mp h
        exact ⟨middle, .cons hlt hr, ho⟩
    · rintro ⟨middle, h, ho⟩
      cases h with
      | cons hlt h => exact .cons hlt (ih.mpr ⟨middle, h, ho⟩)

/-- A range gives way to its two parts at a threshold inside it. -/
theorem split (h : Chain first (ranges ++ r :: others) last) (hl : r.lower < t)
    (hu : t < r.upper) :
    Chain first (ranges ++ ⟨r.lower, t⟩ :: ⟨t, r.upper⟩ :: others) last := by
  obtain ⟨middle, hr, ho⟩ := append_iff.mp h
  cases ho with
  | cons _ ho => exact append_iff.mpr ⟨_, hr, .cons hl (.cons hu ho)⟩

/-- Chains are the ranges between their inner bounds. -/
theorem eq_between (h : Chain first ranges last) (hne : ranges ≠ []) :
    ranges = between first (ranges.dropLast.map (·.upper)) last := by
  induction h with
  | nil => exact absurd rfl hne
  | @cons lower upper last rest _ h ih =>
    cases rest with
    | nil =>
      cases h
      rfl
    | cons next rest =>
      rw [List.dropLast_cons_cons, List.map_cons, between, ← ih (List.cons_ne_nil _ _)]

theorem pairwise_bounds (h : Chain first ranges last) :
    (first :: ranges.map (·.upper)).Pairwise (· < ·) := by
  induction h with
  | nil => exact List.pairwise_singleton _ _
  | cons hlt _ ih =>
    refine List.pairwise_cons.mpr ⟨fun bound hb => ?_, ih⟩
    obtain rfl | hb := List.mem_cons.mp hb
    · exact hlt
    · exact Double.lt_trans hlt ((List.pairwise_cons.mp ih).1 bound hb)

theorem isNaN_upper (h : Chain first ranges last) : ∀ r ∈ ranges, r.upper.isNaN = false := by
  induction h with
  | nil => exact fun _ hr => nomatch hr
  | cons hlt _ ih =>
    intro r hr
    obtain rfl | hr := List.mem_cons.mp hr
    · exact (Double.lt_iff.mp hlt).2.1
    · exact ih r hr

theorem not_contains_of_le (h : Chain first ranges last) (hv : v ≤ first) :
    ranges.filter (·.contains v) = [] := by
  induction h with
  | nil => rfl
  | @cons lower upper last rest hlt _ ih =>
    have hnot : (⟨lower, upper⟩ : Range).contains v = false :=
      Bool.eq_false_iff.mpr fun h => Double.not_le_of_lt (contains_iff.mp h).1 hv
    simp [hnot, ih (Double.le_of_lt (Double.lt_of_le_of_lt hv hlt))]

/-- No value lies in two ranges of a chain. -/
theorem pairwise_disjoint (h : Chain first ranges last) :
    ranges.Pairwise fun r r' => ∀ v, r.contains v = true → ¬ r'.contains v = true := by
  induction h with
  | nil => exact .nil
  | cons _ h ih =>
    refine List.pairwise_cons.mpr ⟨fun r' hr' v hv => ?_, ih⟩
    exact List.filter_eq_nil_iff.mp (h.not_contains_of_le (contains_iff.mp hv).2) r' hr'

/-- One range of a chain contains a value between its ends, and no other one does. -/
theorem exists_filter_contains (h : Chain first ranges last) (hl : first < v) (hu : v ≤ last) :
    ∃ r, ranges.filter (·.contains v) = [r] := by
  induction h with
  | nil bound => exact absurd hu (Double.not_le_of_lt hl)
  | @cons lower upper last rest hlt h ih =>
    by_cases hv : v ≤ upper
    · have hhead : (⟨lower, upper⟩ : Range).contains v = true := contains_iff.mpr ⟨hl, hv⟩
      exact ⟨⟨lower, upper⟩, by simp [hhead, h.not_contains_of_le hv]⟩
    · have hnot : (⟨lower, upper⟩ : Range).contains v = false :=
        Bool.eq_false_iff.mpr fun h => hv (contains_iff.mp h).2
      have hupper := Double.lt_of_not_le (Double.lt_iff.mp hl).2.1 (Double.lt_iff.mp hlt).2.1 hv
      obtain ⟨r, hr⟩ := ih hupper hu
      exact ⟨r, by simp [hnot, hr]⟩

theorem exists_contains (h : Chain first ranges last) (hl : first < v) (hu : v ≤ last) :
    ∃ r ∈ ranges, r.contains v = true := by
  obtain ⟨r, hr⟩ := h.exists_filter_contains hl hu
  exact ⟨r, List.mem_filter.mp (hr ▸ List.mem_cons_self)⟩

/-- Chains with equal inner bounds hold the same values range by range. Equal bounds need not be
the same doubles, since zero has two signs. -/
theorem contains_congr {first' : Float} (h : Chain first ranges last)
    (h' : Chain first' others last) (hne : ranges ≠ []) (hne' : others ≠ [])
    (hfirst : (first == first') = true)
    (hinner : (ranges.dropLast.map (·.upper) == others.dropLast.map (·.upper)) = true) :
    List.Forall₂ (fun r r' => ∀ v, r.contains v = r'.contains v) ranges others := by
  have hcontains {a b a' b' : Float} (ha : (a == a') = true) (hb : ∀ v, v ≤ b ↔ v ≤ b') (v : Float) :
      (⟨a, b⟩ : Range).contains v = (⟨a', b'⟩ : Range).contains v := by
    rw [Bool.eq_iff_iff, contains_iff, contains_iff, Double.lt_congr_left ha, hb]
  induction h generalizing first' others with
  | nil => exact absurd rfl hne
  | @cons lower upper last rest _ h ih =>
    cases h' with
    | nil => exact absurd rfl hne'
    | @cons _ upper' _ rest' _ h' =>
      cases rest with
      | nil =>
        cases rest' with
        | nil =>
          cases h
          cases h'
          exact .cons (hcontains hfirst fun _ => Iff.rfl) .nil
        | cons => simp at hinner
      | cons next rest =>
        cases rest' with
        | nil => simp at hinner
        | cons next' rest' =>
          simp only [List.dropLast_cons_cons, List.map_cons, List.cons_beq_cons,
            Bool.and_eq_true] at hinner
          exact .cons (hcontains hfirst fun _ => Double.le_congr_right hinner.1)
            (ih h' (List.cons_ne_nil _ _) (List.cons_ne_nil _ _) hinner.1 hinner.2)

end Chain

end FairProgram.Range
