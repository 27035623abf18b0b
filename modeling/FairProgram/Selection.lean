/-!
# First best choice

A choice among candidates that keeps the earliest of those that no other beats.
-/

namespace FairProgram

section
variable {α : Type} (beats : α → α → Bool)

/-- The first candidate, or the one that took over from it: each candidate in turn takes over where
it beats the best so far. -/
def bestFrom (first : α) (rest : List α) : α :=
  rest.foldl (fun best next => if beats next best then next else best) first

def firstBest? : List α → Option α
  | [] => none
  | first :: rest => some (bestFrom beats first rest)

@[simp] theorem firstBest?_eq_none_iff {candidates : List α} :
    firstBest? beats candidates = none ↔ candidates = [] := by
  cases candidates <;> simp [firstBest?]

theorem bestFrom_mem (first : α) (rest : List α) : bestFrom beats first rest ∈ first :: rest := by
  induction rest generalizing first with
  | nil => simp [bestFrom]
  | cons next rest ih =>
    rw [bestFrom, List.foldl_cons]
    split
    · exact List.mem_cons_of_mem _ (ih next)
    · obtain h | h := List.mem_cons.mp (ih first)
      · exact List.mem_cons.mpr (.inl h)
      · exact List.mem_cons_of_mem _ (List.mem_cons_of_mem _ h)

theorem mem_of_firstBest?_eq_some {candidates : List α} {best : α}
    (h : firstBest? beats candidates = some best) : best ∈ candidates := by
  cases candidates with
  | nil => simp [firstBest?] at h
  | cons first rest =>
    cases h
    exact bestFrom_mem beats first rest

end

end FairProgram
