import FairProgram.Selection
import Mathlib

/-!
# The first of the greatest

Where candidates beat others by a greater rank, the first best candidate is the first of those of
greatest rank: the ones in front of it have lesser ranks, and the ones after it no greater ones.
-/

namespace FairProgram

variable {α ι : Type} [LinearOrder ι] {beats : α → α → Bool} {rank : α → ι}

def FirstGreatest (rank : α → ι) (candidates : List α) (best : α) : Prop :=
  ∃ before after, candidates = before ++ best :: after ∧ (∀ a ∈ before, rank a < rank best) ∧
    ∀ a ∈ after, rank a ≤ rank best

namespace FirstGreatest

variable {candidates : List α} {first next best : α}

theorem le (h : FirstGreatest rank candidates best) : ∀ a ∈ candidates, rank a ≤ rank best := by
  obtain ⟨before, after, rfl, hbefore, hafter⟩ := h
  intro a ha
  obtain ha | rfl | ha := by simpa using ha
  · exact (hbefore a ha).le
  · exact le_rfl
  · exact hafter a ha

theorem cons (h : FirstGreatest rank candidates best) (hlt : rank first < rank best) :
    FirstGreatest rank (first :: candidates) best := by
  obtain ⟨before, after, rfl, hbefore, hafter⟩ := h
  exact ⟨first :: before, after, rfl, List.forall_mem_cons.mpr ⟨hlt, hbefore⟩, hafter⟩

/-- A candidate that does not beat the one in front of it makes no difference. -/
theorem insert (h : FirstGreatest rank (first :: candidates) best)
    (hle : rank next ≤ rank first) : FirstGreatest rank (first :: next :: candidates) best := by
  obtain ⟨before, after, heq, hbefore, hafter⟩ := h
  cases before with
  | nil =>
    obtain ⟨rfl, rfl⟩ := List.cons.inj heq
    exact ⟨[], next :: candidates, rfl, by simp, List.forall_mem_cons.mpr ⟨hle, hafter⟩⟩
  | cons _ before =>
    obtain ⟨rfl, rfl⟩ := List.cons.inj heq
    obtain ⟨hfirst, hbefore⟩ := List.forall_mem_cons.mp hbefore
    exact ⟨first :: next :: before, after, rfl, List.forall_mem_cons.mpr ⟨hfirst,
      List.forall_mem_cons.mpr ⟨hle.trans_lt hfirst, hbefore⟩⟩, hafter⟩

theorem of_range {f : Nat → α} {n : Nat}
    (h : FirstGreatest rank ((List.range n).map f) best) :
    ∃ i < n, f i = best ∧ (∀ j < i, rank (f j) < rank best) ∧ ∀ j < n, rank (f j) ≤ rank best := by
  obtain ⟨before, after, heq, hbefore, -⟩ := id h
  have hget (j : Nat) (hj : j < n) : (before ++ best :: after)[j]? = some (f j) := by
    rw [← heq]
    simp [hj]
  have hlt : before.length < n := by
    have := congrArg List.length heq
    simp only [List.length_map, List.length_range, List.length_append, List.length_cons] at this
    omega
  refine ⟨before.length, hlt, ?_, fun j hj => ?_, fun j hj => ?_⟩
  · simpa using (hget _ hlt).symm
  · have hj' := hget j (hj.trans hlt)
    rw [List.getElem?_append_left hj] at hj'
    exact hbefore _ (List.mem_of_getElem? hj')
  · exact h.le _ (List.mem_map_of_mem (List.mem_range.mpr hj))

end FirstGreatest

/-- The comparisons need to be those of the ranks among the candidates only. -/
theorem bestFrom_firstGreatest {first : α} {rest : List α}
    (hbeats : ∀ next ∈ first :: rest, ∀ best ∈ first :: rest,
      beats next best = true ↔ rank best < rank next) :
    FirstGreatest rank (first :: rest) (bestFrom beats first rest) := by
  induction rest generalizing first with
  | nil => exact ⟨[], [], rfl, by simp, by simp⟩
  | cons next rest ih =>
    have hstep : bestFrom beats first (next :: rest) =
        bestFrom beats (if beats next first then next else first) rest := rfl
    rw [hstep]
    split
    · rename_i hnext
      have hlt := (hbeats next (by simp) first (by simp)).mp hnext
      have hbest := ih fun a ha b hb =>
        hbeats a (List.mem_cons_of_mem _ ha) b (List.mem_cons_of_mem _ hb)
      exact hbest.cons (hlt.trans_le (hbest.le next List.mem_cons_self))
    · rename_i hnext
      have hle : rank next ≤ rank first :=
        not_lt.mp fun hlt => hnext ((hbeats next (by simp) first (by simp)).mpr hlt)
      have hsub : first :: rest ⊆ first :: next :: rest :=
        List.cons_subset_cons _ (List.subset_cons_self _ _)
      exact (ih fun a ha b hb => hbeats a (hsub ha) b (hsub hb)).insert hle

theorem firstBest?_firstGreatest {candidates : List α} {best : α}
    (hbeats : ∀ next ∈ candidates, ∀ best ∈ candidates,
      beats next best = true ↔ rank best < rank next)
    (h : firstBest? beats candidates = some best) : FirstGreatest rank candidates best := by
  cases candidates with
  | nil => simp [firstBest?] at h
  | cons first rest =>
    cases h
    exact bestFrom_firstGreatest hbeats

end FairProgram
