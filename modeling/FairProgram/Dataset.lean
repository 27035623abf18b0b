/-!
# Datasets

Named columns of doubles with one value per row. Columns keep their declared order, and their names
are distinct.
-/

namespace FairProgram

structure Column where
  name : String
  values : List Float

inductive DatasetError where
  | noColumns
  | duplicateColumn (name : String)
  | unknownColumn (name : String)
  | columnCount (expected found : Nat)
  | rowCount (expected found : Nat)
  | cellCount (expected found : Nat)
  | raggedRow (row expected found : Nat)
  | notANumber (row : Nat) (column cell : String)
  | invalidEncoding

def DatasetError.message : DatasetError → String
  | .noColumns => "dataset has no columns"
  | .duplicateColumn name => "duplicate column name '" ++ name ++ "'"
  | .unknownColumn name => "unknown column '" ++ name ++ "'"
  | .columnCount expected found =>
    "shape mismatch for columns: expected " ++ toString expected ++ ", got " ++ toString found
  | .rowCount expected found =>
    "shape mismatch for rows: expected " ++ toString expected ++ ", got " ++ toString found
  | .cellCount expected found =>
    "shape mismatch for cells: expected " ++ toString expected ++ ", got " ++ toString found
  | .raggedRow row expected found =>
    "row " ++ toString row ++ " has " ++ toString found ++ " cells, header has " ++
      toString expected
  | .notANumber row column cell =>
    "row " ++ toString row ++ ", column '" ++ column ++ "': cannot parse '" ++ cell ++
      "' as a number"
  | .invalidEncoding => "csv error: invalid UTF-8"

/-- Columns in declared order, at least one, with `rows` values each. -/
structure Dataset where
  columns : List Column
  rows : Nat
  columns_ne_nil : columns ≠ []
  length_values : ∀ c ∈ columns, c.values.length = rows
  names_nodup : (columns.map (·.name)).Nodup

def firstDuplicate? (texts : List String) : Option String :=
  (texts.zipIdx.find? fun (text, place) => (texts.take place).contains text).map (·.1)

theorem firstDuplicate?_eq_none {texts : List String} (h : firstDuplicate? texts = none) :
    texts.Nodup := by
  simp only [firstDuplicate?, Option.map_eq_none_iff, List.find?_eq_none] at h
  rw [List.nodup_iff_pairwise_ne, List.pairwise_iff_getElem]
  intro i j hi hj hij heq
  have := h (texts[j], j) (by simp [List.mk_mem_zipIdx_iff_getElem?, hj])
  simp only [List.contains_iff_mem, List.mem_take_iff_getElem] at this
  exact this ⟨i, by omega, heq⟩

namespace Dataset

/-- A dataset of columns that have one length, from a list of at least one column. -/
def ofColumns (columns : List Column) : Except DatasetError Dataset :=
  match columns with
  | [] => .error .noColumns
  | first :: rest =>
    let columns := first :: rest
    let rows := first.values.length
    match h : columns.find? fun c => c.values.length != rows with
    | some odd => .error (.rowCount rows odd.values.length)
    | none =>
      match hn : firstDuplicate? (columns.map (·.name)) with
      | some name => .error (.duplicateColumn name)
      | none =>
        .ok {
          columns := columns
          rows := rows
          columns_ne_nil := List.cons_ne_nil _ _
          length_values := by simpa [List.find?_eq_none] using h
          names_nodup := firstDuplicate?_eq_none hn }

/-- A dataset of names and the rows of a matrix, one row for each column's values. -/
def ofMatrix (names : List String) (values : List (List Float)) : Except DatasetError Dataset :=
  if names.isEmpty then .error .noColumns
  else if names.length ≠ values.length then .error (.columnCount names.length values.length)
  else ofColumns ((names.zip values).map fun (name, values) => ⟨name, values⟩)

def names (d : Dataset) : List String :=
  d.columns.map (·.name)

def width (d : Dataset) : Nat :=
  d.columns.length

def indexOf? (d : Dataset) (name : String) : Option Nat :=
  d.names.idxOf? name

/-- The dataset without the column of a name, which must not be the only one. -/
def without (d : Dataset) (name : String) : Except DatasetError Dataset :=
  match d.indexOf? name with
  | none => .error (.unknownColumn name)
  | some place => ofColumns (d.columns.eraseIdx place)

def allRows (d : Dataset) : List Nat :=
  List.range d.rows

/-- The values of a column at rows, in the order of the rows; rows beyond the column have none. -/
def gather (d : Dataset) (column : Nat) (rows : List Nat) : List Float :=
  match d.columns[column]? with
  | none => []
  | some c =>
    let values := c.values.toArray
    rows.filterMap fun row => values[row]?

def filterRows (d : Dataset) (column : Nat) (rows : List Nat) (keep : Float → Bool) : List Nat :=
  match d.columns[column]? with
  | none => []
  | some c =>
    let values := c.values.toArray
    rows.filter fun row => values[row]?.any keep

/-- Whether a column and rows of it exist. -/
def covers (d : Dataset) (column : Nat) (rows : List Nat) : Bool :=
  column < d.width && rows.all (· < d.rows)

def gather? (d : Dataset) (column : Nat) (rows : List Nat) : Option (List Float) :=
  if d.covers column rows then some (d.gather column rows) else none

def filterRows? (d : Dataset) (column : Nat) (rows : List Nat) (keep : Float → Bool) :
    Option (List Nat) :=
  if d.covers column rows then some (d.filterRows column rows keep) else none

end Dataset

end FairProgram
