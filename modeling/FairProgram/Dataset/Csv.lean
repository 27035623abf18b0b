import FairProgram.Csv
import FairProgram.Dataset
import FairProgram.Decimal.Numeral
import FairProgram.Text.Blank

/-!
# Datasets from comma-separated text

The first record names the columns, and every cell of the others is a number. The numbers are kept
row by row until all of them are read.
-/

namespace FairProgram.Dataset

def readCells (row : Nat) (cells : List (String × String)) : Except DatasetError (List Float) :=
  cells.mapM fun (column, cell) =>
    match Decimal.read? cell.toList with
    | some value => .ok value
    | none => .error (.notANumber row column cell)

/-- The numbers of one record, which must have as many cells as there are names. -/
def readRecord (names : List String) (row : Nat) (record : List String) :
    Except DatasetError (List Float) :=
  if record.length ≠ names.length then .error (.raggedRow row names.length record.length)
  else readCells row (names.zip record)

/-- The numbers of records in turn, counted from one; the first faulty record decides. -/
def readRecords (names : List String) (records : List (List String)) :
    Except DatasetError (List (List Float)) :=
  records.zipIdx.mapM fun (record, i) => readRecord names (i + 1) record

/-- A matrix whose rows lie one after another. -/
structure RowMajor where
  rows : Nat
  width : Nat
  cells : Array Float
  size_cells : cells.size = rows * width

namespace RowMajor

/-- Cells in a shape, which must have a place for each of them. The fault does not count them. -/
def ofShape (rows width : Nat) (cells : Array Float) : Except DatasetError RowMajor :=
  if h : cells.size = rows * width then .ok ⟨rows, width, cells, h⟩
  else .error (.cellCount (rows * width) 0)

theorem place_lt (m : RowMajor) (row : Fin m.rows) (column : Fin m.width) :
    row * m.width + column < m.cells.size :=
  calc row * m.width + column
    _ < row * m.width + m.width := Nat.add_lt_add_left column.isLt _
    _ = (row + 1) * m.width := (Nat.succ_mul _ _).symm
    _ ≤ m.rows * m.width := Nat.mul_le_mul_right _ row.isLt
    _ = m.cells.size := m.size_cells.symm

def cell (m : RowMajor) (row : Fin m.rows) (column : Fin m.width) : Float :=
  have := m.place_lt row column
  m.cells[row * m.width + column]

def columns (m : RowMajor) : List (List Float) :=
  List.ofFn fun column => List.ofFn fun row => m.cell row column

end RowMajor

/-- The dataset of a header and records of text. Only faultless records make the names count. -/
def ofRecords (names : List String) (records : List (List String)) :
    Except DatasetError Dataset := do
  let rows ← readRecords names records
  let matrix ← RowMajor.ofShape rows.length names.length rows.flatten.toArray
  ofMatrix names matrix.columns

/-- The cells of a record without blanks around them, if all of them are valid text. -/
def decodeRecord? (record : List (List UInt8)) : Option (List String) :=
  record.mapM fun field =>
    (String.fromUTF8? ⟨field.toArray⟩).map fun text => String.ofList (Text.trim text.toList)

/-- The dataset of comma-separated text. Records are read in turn, so that one that is no valid
text is reported only where no record before it is faulty. -/
def ofCsv (bytes : List UInt8) : Except DatasetError Dataset :=
  match (Csv.records bytes).map decodeRecord? with
  | [] => ofRecords [] []
  | none :: _ => .error .invalidEncoding
  | some names :: records =>
    match records.mapM id with
    | some records => ofRecords names records
    | none => do
      let _ ← readRecords names ((records.takeWhile Option.isSome).filterMap id)
      .error .invalidEncoding

end FairProgram.Dataset
