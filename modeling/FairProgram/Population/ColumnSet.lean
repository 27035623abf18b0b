import FairProgram.Whole

/-!
# Sets of columns

A set of column indices below a bound, held as a fixed number of 64-bit words.
-/

namespace FairProgram

/-- Columns below `bound`. Column `c` is bit `c % 64` of word `c / 64`. -/
structure ColumnSet where
  bound : Nat
  words : List (BitVec 64)
  length_words : words.length = (bound + 63) / 64
deriving DecidableEq

namespace ColumnSet

def mask (column : Nat) : BitVec 64 :=
  BitVec.twoPow 64 (column % 64)

def weight (word : BitVec 64) : Nat :=
  (List.range 64).countP word.getLsbD

/-- Combines words place by place. Words of the first set beyond those of the second stay. -/
def combine (f : BitVec 64 → BitVec 64 → BitVec 64) :
    List (BitVec 64) → List (BitVec 64) → List (BitVec 64)
  | word :: words, other :: others => f word other :: combine f words others
  | words, _ => words

@[simp] theorem length_combine (f : BitVec 64 → BitVec 64 → BitVec 64)
    (words others : List (BitVec 64)) :
    (combine f words others).length = words.length := by
  induction words generalizing others with
  | nil => simp [combine]
  | cons word words ih => cases others <;> simp [combine, ih]

def empty (bound : Nat) : ColumnSet :=
  ⟨bound, List.replicate ((bound + 63) / 64) 0#64, List.length_replicate⟩

def contains (s : ColumnSet) (column : Nat) : Bool :=
  column < s.bound && (s.words.getD (column / 64) 0#64).getLsbD (column % 64)

/-- Adds a column; one at the bound or beyond is not added. -/
def insert (s : ColumnSet) (column : Nat) : ColumnSet :=
  if column < s.bound then
    ⟨s.bound, s.words.modify (column / 64) (· ||| mask column), by simp [s.length_words]⟩
  else s

/-- Adds a column below the bound and says whether it is new. -/
def insert? (s : ColumnSet) (column : Nat) : Option (ColumnSet × Bool) :=
  if column < s.bound then some (s.insert column, !s.contains column) else none

def union (s other : ColumnSet) : ColumnSet :=
  ⟨s.bound, combine (· ||| ·) s.words other.words, by simp [s.length_words]⟩

def inter (s other : ColumnSet) : ColumnSet :=
  ⟨s.bound, combine (· &&& ·) s.words other.words, by simp [s.length_words]⟩

def size (s : ColumnSet) : Nat :=
  Whole.sum (s.words.map weight)

def isEmpty (s : ColumnSet) : Bool :=
  s.words.all (· == 0#64)

/-- The columns held, in increasing order. -/
def toList (s : ColumnSet) : List Nat :=
  (List.range s.bound).filter s.contains

def insertAll (s : ColumnSet) (columns : List Nat) : ColumnSet :=
  columns.foldl insert s

/-- Adds columns up to the first one that is not below the bound, and says whether there is none. -/
def extend (s : ColumnSet) : List Nat → ColumnSet × Bool
  | [] => (s, true)
  | column :: rest => if column < s.bound then (s.insert column).extend rest else (s, false)

/-- The bit of a column, which words hold at the bound and beyond too. -/
def bit (s : ColumnSet) (column : Nat) : Bool :=
  (s.words.getD (column / 64) 0#64).getLsbD (column % 64)

theorem contains_eq (s : ColumnSet) (column : Nat) :
    s.contains column = (decide (column < s.bound) && s.bit column) :=
  rfl

theorem lt_bound_of_contains {s : ColumnSet} {column : Nat} (h : s.contains column = true) :
    column < s.bound := by
  simp only [contains, Bool.and_eq_true, decide_eq_true_eq] at h
  exact h.1

@[simp] theorem mem_toList {s : ColumnSet} {column : Nat} :
    column ∈ s.toList ↔ s.contains column = true := by
  simp only [toList, List.mem_filter, List.mem_range]
  exact ⟨And.right, fun h => ⟨lt_bound_of_contains h, h⟩⟩

@[simp] theorem bit_empty (bound column : Nat) : (empty bound).bit column = false := by
  by_cases h : column / 64 < (bound + 63) / 64
  · simp [bit, empty, h]
  · simp [bit, empty, h]

@[simp] theorem contains_empty (bound column : Nat) : (empty bound).contains column = false := by
  rw [contains_eq, bit_empty, Bool.and_false]

@[simp] theorem bound_empty (bound : Nat) : (empty bound).bound = bound :=
  rfl

@[simp] theorem bound_union (s other : ColumnSet) : (s.union other).bound = s.bound :=
  rfl

@[simp] theorem bound_inter (s other : ColumnSet) : (s.inter other).bound = s.bound :=
  rfl

@[simp] theorem bound_insert (s : ColumnSet) (column : Nat) :
    (s.insert column).bound = s.bound := by
  unfold insert
  split <;> rfl

theorem insert?_eq {s : ColumnSet} {column : Nat} (h : column < s.bound) :
    s.insert? column = some (s.insert column, !s.contains column) :=
  if_pos h

theorem bit_insert {s : ColumnSet} {column : Nat} (h : column < s.bound) (other : Nat) :
    (s.insert column).bit other = (decide (other = column) || s.bit other) := by
  have stored : column / 64 < s.words.length := by rw [s.length_words]; omega
  simp only [bit, insert, h, if_true, List.getD_eq_getElem?_getD, List.getElem?_modify]
  by_cases same : column / 64 = other / 64
  · have inside : other / 64 < s.words.length := same ▸ stored
    have sameColumn : column % 64 = other % 64 ↔ other = column := by omega
    by_cases equal : other = column
    · subst equal
      simp [stored, mask, Nat.mod_lt]
    · have differs : column % 64 ≠ other % 64 := fun e => equal (sameColumn.mp e)
      simp [same, inside, mask, equal, differs]
  · have differs : other ≠ column := fun e => same (e ▸ rfl)
    simp [same, differs]

theorem contains_insert {s : ColumnSet} {column : Nat} (h : column < s.bound) (other : Nat) :
    (s.insert column).contains other = (decide (other = column) || s.contains other) := by
  rw [contains_eq, contains_eq, bit_insert h, bound_insert]
  by_cases equal : other = column
  · simp [equal, h]
  · simp [equal]

theorem contains_insert_iff {s : ColumnSet} {column other : Nat} (h : column < s.bound) :
    (s.insert column).contains other = true ↔ other = column ∨ s.contains other = true := by
  rw [contains_insert h, Bool.or_eq_true, decide_eq_true_iff]

theorem getLsbD_combine {f : BitVec 64 → BitVec 64 → BitVec 64} {words others : List (BitVec 64)}
    (h : words.length = others.length) (place bit : Nat) (zero : f 0#64 0#64 = 0#64) :
    ((combine f words others)[place]?.getD 0#64).getLsbD bit =
      (f (words[place]?.getD 0#64) (others[place]?.getD 0#64)).getLsbD bit := by
  induction words generalizing others place with
  | nil =>
    cases others with
    | nil => simp [combine, zero]
    | cons other others => simp at h
  | cons word words ih =>
    cases others with
    | nil => simp at h
    | cons other others =>
      cases place with
      | zero => simp [combine]
      | succ place => simpa [combine] using ih (by simpa using h) place

theorem bit_union {s other : ColumnSet} (h : s.bound = other.bound) (column : Nat) :
    (s.union other).bit column = (s.bit column || other.bit column) := by
  have lengths : s.words.length = other.words.length := by
    rw [s.length_words, other.length_words, h]
  simp [bit, union, getLsbD_combine lengths]

theorem contains_union {s other : ColumnSet} (h : s.bound = other.bound) (column : Nat) :
    (s.union other).contains column = (s.contains column || other.contains column) := by
  by_cases inside : column < s.bound <;> simp [contains_eq, bit_union h, ← h, inside]

theorem bit_inter {s other : ColumnSet} (h : s.bound = other.bound) (column : Nat) :
    (s.inter other).bit column = (s.bit column && other.bit column) := by
  have lengths : s.words.length = other.words.length := by
    rw [s.length_words, other.length_words, h]
  simp [bit, inter, getLsbD_combine lengths]

theorem contains_inter {s other : ColumnSet} (h : s.bound = other.bound) (column : Nat) :
    (s.inter other).contains column = (s.contains column && other.contains column) := by
  by_cases inside : column < s.bound <;> simp [contains_eq, bit_inter h, ← h, inside]

@[simp] theorem bound_insertAll (s : ColumnSet) (columns : List Nat) :
    (s.insertAll columns).bound = s.bound := by
  induction columns generalizing s with
  | nil => rfl
  | cons column rest ih => rw [insertAll, List.foldl_cons, ← insertAll, ih, bound_insert]

theorem extend_eq {columns : List Nat} (s : ColumnSet) (h : ∀ c ∈ columns, c < s.bound) :
    s.extend columns = (s.insertAll columns, true) := by
  induction columns generalizing s with
  | nil => rfl
  | cons column rest ih =>
    rw [extend, if_pos (h column List.mem_cons_self), ih]
    · rfl
    · intro c hc
      rw [bound_insert]
      exact h c (List.mem_cons_of_mem _ hc)

theorem contains_insertAll {s : ColumnSet} {columns : List Nat} {column : Nat} :
    (s.insertAll columns).contains column = true ↔
      s.contains column = true ∨ column ∈ columns ∧ column < s.bound := by
  induction columns generalizing s with
  | nil => simp [insertAll]
  | cons first rest ih =>
    rw [insertAll, List.foldl_cons, ← insertAll, ih, bound_insert, List.mem_cons]
    by_cases h : first < s.bound
    · rw [contains_insert_iff h]
      constructor
      · rintro ((rfl | hc) | ⟨hm, hb⟩)
        · exact .inr ⟨.inl rfl, h⟩
        · exact .inl hc
        · exact .inr ⟨.inr hm, hb⟩
      · rintro (hc | ⟨rfl | hm, hb⟩)
        · exact .inl (.inr hc)
        · exact .inl (.inl rfl)
        · exact .inr ⟨hm, hb⟩
    · have hs : s.insert first = s := by simp [insert, h]
      rw [hs]
      constructor
      · rintro (hc | ⟨hm, hb⟩)
        · exact .inl hc
        · exact .inr ⟨.inr hm, hb⟩
      · rintro (hc | ⟨rfl | hm, hb⟩)
        · exact .inl hc
        · exact absurd hb h
        · exact .inr ⟨hm, hb⟩

end ColumnSet

end FairProgram
