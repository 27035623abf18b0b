import Mathlib.Data.List.Forall2

/-!
# The first fault

Items read one after another have results exactly where each of them has one (`mapM_eq_ok_iff`), and
otherwise the fault is that of the first item without a result (`mapM_eq_error_iff`).
-/

namespace FairProgram

section
variable {α β ε : Type} {read : α → Except ε β} {item : α} {items : List α} {result : β}
  {results : List β} {fault : ε}

theorem mapM_cons_of_ok (h : read item = .ok result) :
    (item :: items).mapM read = (items.mapM read).map (result :: ·) := by
  rw [List.mapM_cons, h]
  cases items.mapM read <;> rfl

theorem mapM_cons_of_error (h : read item = .error fault) :
    (item :: items).mapM read = .error fault := by
  rw [List.mapM_cons, h]
  rfl

theorem mapM_eq_ok_iff : items.mapM read = .ok results ↔ items.map read = results.map .ok := by
  induction items generalizing results with
  | nil => cases results <;> simp [pure, Except.pure]
  | cons item rest ih =>
    cases hitem : read item with
    | error fault => cases results <;> simp [mapM_cons_of_error hitem, hitem]
    | ok result =>
      rw [mapM_cons_of_ok hitem, List.map_cons, hitem]
      constructor
      · intro h
        cases hrest : rest.mapM read with
        | error fault =>
          rw [hrest] at h
          cases h
        | ok others =>
          rw [hrest] at h
          cases h
          rw [List.map_cons, ih.mp hrest]
      · intro h
        obtain ⟨first, others, rfl, hfirst, hothers⟩ := List.map_eq_cons_iff.mp h.symm
        cases hfirst
        rw [ih.mpr hothers.symm]
        rfl

theorem mapM_eq_ok_iff_forall₂ :
    items.mapM read = .ok results ↔ List.Forall₂ (read · = .ok ·) items results := by
  rw [mapM_eq_ok_iff, ← List.forall₂_eq_eq_eq, List.forall₂_map_left_iff, List.forall₂_map_right_iff]

theorem exists_mapM_iff :
    (∃ results, items.mapM read = .ok results) ↔ ∀ item ∈ items, ∃ result, read item = .ok result := by
  simp only [mapM_eq_ok_iff]
  induction items with
  | nil => exact ⟨fun _ => List.forall_mem_nil _, fun _ => ⟨[], rfl⟩⟩
  | cons item rest ih =>
    rw [List.forall_mem_cons, ← ih]
    constructor
    · rintro ⟨results, h⟩
      obtain ⟨result, others, rfl, hresult, hothers⟩ := List.map_eq_cons_iff.mp h.symm
      exact ⟨⟨result, hresult.symm⟩, others, hothers.symm⟩
    · rintro ⟨⟨result, hresult⟩, others, hothers⟩
      exact ⟨result :: others, by rw [List.map_cons, List.map_cons, hresult, hothers]⟩

/-- The fault of an item that only items with results stand in front of. -/
def FirstFault (read : α → Except ε β) (items : List α) (fault : ε) : Prop :=
  ∃ (place : Nat) (item : α), items[place]? = some item ∧ read item = .error fault ∧
    ∀ earlier < place, ∀ other, items[earlier]? = some other → ∃ result, read other = .ok result

theorem firstFault_cons_of_ok (h : read item = .ok result) :
    FirstFault read (item :: items) fault ↔ FirstFault read items fault := by
  constructor
  · rintro ⟨place, found, hfound, hfault, hearlier⟩
    cases place with
    | zero =>
      cases hfound
      rw [h] at hfault
      cases hfault
    | succ place =>
      exact ⟨place, found, hfound, hfault, fun earlier hlt other hother =>
        hearlier (earlier + 1) (Nat.succ_lt_succ hlt) other hother⟩
  · rintro ⟨place, found, hfound, hfault, hearlier⟩
    refine ⟨place + 1, found, hfound, hfault, fun earlier hlt other hother => ?_⟩
    cases earlier with
    | zero =>
      cases hother
      exact ⟨result, h⟩
    | succ earlier => exact hearlier earlier (Nat.lt_of_succ_lt_succ hlt) other hother

theorem firstFault_cons_of_error {first : ε} (h : read item = .error first) :
    FirstFault read (item :: items) fault ↔ first = fault := by
  constructor
  · rintro ⟨place, found, hfound, hfault, hearlier⟩
    cases place with
    | zero =>
      cases hfound
      exact Except.error.inj (h.symm.trans hfault)
    | succ place =>
      obtain ⟨result, hresult⟩ := hearlier 0 (Nat.zero_lt_succ _) item rfl
      rw [h] at hresult
      cases hresult
  · rintro rfl
    exact ⟨0, item, rfl, h, fun _ hlt => absurd hlt (Nat.not_lt_zero _)⟩

theorem mapM_eq_error_iff : items.mapM read = .error fault ↔ FirstFault read items fault := by
  induction items with
  | nil => simp [FirstFault, pure, Except.pure]
  | cons item rest ih =>
    cases hitem : read item with
    | error first => rw [mapM_cons_of_error hitem, firstFault_cons_of_error hitem, Except.error.injEq]
    | ok result =>
      rw [mapM_cons_of_ok hitem, firstFault_cons_of_ok hitem, ← ih]
      cases rest.mapM read <;> simp [Except.map]

end

section
variable {α β : Type} {items : List α}

theorem mapM_eq_pure_map {m : Type → Type} [Monad m] [LawfulMonad m] {read : α → m β} {f : α → β}
    (h : ∀ item ∈ items, read item = pure (f item)) : items.mapM read = pure (items.map f) := by
  induction items with
  | nil => rfl
  | cons item rest ih =>
    rw [List.mapM_cons, h item List.mem_cons_self, pure_bind,
      ih fun other ho => h other (List.mem_cons_of_mem _ ho), pure_bind, List.map_cons]

/-- A fold whose steps succeed as long as an invariant holds that they keep. -/
theorem foldlM_eq_pure {m : Type → Type} [Monad m] [LawfulMonad m] {step : β → α → m β}
    {f : β → α → β} {I : β → Prop} {start : β} (h : I start)
    (hstep : ∀ item ∈ items, ∀ b, I b → step b item = pure (f b item) ∧ I (f b item)) :
    items.foldlM step start = pure (items.foldl f start) := by
  induction items generalizing start with
  | nil => rfl
  | cons item rest ih =>
    obtain ⟨hfirst, hI⟩ := hstep item List.mem_cons_self start h
    rw [List.foldlM_cons, hfirst, pure_bind, List.foldl_cons]
    exact ih hI fun b hb => hstep b (List.mem_cons_of_mem _ hb)

theorem mapM_eq_none {read : α → Option β} {item : α} (hmem : item ∈ items)
    (h : read item = none) : items.mapM read = none := by
  induction items with
  | nil => cases hmem
  | cons first rest ih =>
    rw [List.mapM_cons]
    obtain rfl | hrest := List.mem_cons.mp hmem
    · rw [h]
      rfl
    · rw [ih hrest]
      cases read first <;> rfl

end

end FairProgram
