import FairProgram.Proofs.Partition.Segments

/-!
# Rows and their positions

The rows that a search starts from are the entries of its two columns in order, each with its
position (`Observes`). Rows chosen by their conditioning value are therefore known by positions
alone: which positions they have, and which subject values stand at these.
-/

namespace FairProgram.Partition

variable {subject conditioning : List Float} {rows : List Observation}

/-- The rows of two columns, each at its position in both. -/
structure Observes (subject conditioning : List Float) (rows : List Observation) : Prop where
  subject_eq : rows.map (·.subject) = subject
  conditioning_eq : rows.map (·.conditioning) = conditioning
  positions_eq : rows.map (·.position) = List.range rows.length

theorem observations?_ok (h : subject.length = conditioning.length) :
    ∃ rows, observations? subject conditioning = some rows ∧
      Observes subject conditioning rows := by
  refine ⟨_, if_pos h, ?_, ?_, ?_⟩
  · rw [List.map_map]
    show (subject.zip conditioning).zipIdx.map (Prod.fst ∘ Prod.fst) = subject
    rw [← List.map_map, List.zipIdx_map_fst, List.map_fst_zip h.le]
  · rw [List.map_map]
    show (subject.zip conditioning).zipIdx.map (Prod.snd ∘ Prod.fst) = conditioning
    rw [← List.map_map, List.zipIdx_map_fst, List.map_snd_zip h.ge]
  · rw [List.map_map, List.length_map, List.length_zipIdx, List.range_eq_range',
      ← List.zipIdx_map_snd 0]
    rfl

/-- Positions counted along a list are found again at the elements chosen. -/
theorem map_filter_eq_findIdxs {α : Type} {position : α → Nat} {l : List α} {start : Nat}
    (h : l.map position = List.range' start l.length) (keep : α → Bool) :
    (l.filter keep).map position = l.findIdxs keep start := by
  induction l generalizing start with
  | nil => rfl
  | cons a l ih =>
    rw [List.map_cons, List.length_cons, List.range'_succ, List.cons.injEq] at h
    rw [List.findIdxs_cons, List.filter_cons, ← ih h.2]
    split
    · rw [List.map_cons, h.1]
    · rfl

namespace Observes

theorem length_conditioning (h : Observes subject conditioning rows) :
    rows.length = conditioning.length := by
  rw [← h.conditioning_eq, List.length_map]

theorem zip_eq (h : Observes subject conditioning rows) :
    rows.map (fun row => (row.subject, row.conditioning)) = subject.zip conditioning := by
  rw [← h.subject_eq, ← h.conditioning_eq, List.zip_map']

theorem finite_conditioning (h : Observes subject conditioning rows)
    (hc : ∀ v ∈ conditioning, v.isFinite = true) :
    ∀ row ∈ rows, row.conditioning.isFinite = true :=
  fun _ hrow => hc _ (h.conditioning_eq ▸ List.mem_map_of_mem hrow)

theorem positions_filter (h : Observes subject conditioning rows) (keep : Float → Bool) :
    (rows.filter fun row => keep row.conditioning).map (·.position) =
      conditioning.findIdxs keep := by
  rw [map_filter_eq_findIdxs (h.positions_eq.trans List.range_eq_range'), ← h.conditioning_eq,
    List.findIdxs_map]
  rfl

end Observes

end FairProgram.Partition
