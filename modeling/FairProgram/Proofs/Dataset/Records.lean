import FairProgram.Dataset.Csv
import FairProgram.Proofs.Dataset.Rows
import FairProgram.Proofs.Faults
import Mathlib

/-!
# Datasets from records

Records of as many numbers as there are names are the rows of a dataset, cell by cell. Otherwise the
first faulty record decides, and the names count only where there is none (`ofRecords_spelled`).
-/

namespace FairProgram

-- ---------------------------------------------------------------------------
-- Repeated names
-- ---------------------------------------------------------------------------

section
variable {texts : List String} {text : String}

theorem nodup_take_iff {count : Nat} : (texts.take count).Nodup ↔
    ∀ place < count, ∀ text, texts[place]? = some text → text ∉ texts.take place := by
  induction count with
  | zero => simp
  | succ count ih =>
    rw [List.take_add_one, List.nodup_append, ih]
    cases hlast : texts[count]? with
    | none =>
      have hshort := List.getElem?_eq_none_iff.mp hlast
      refine ⟨fun h place hlt text htext => h.1 place ?_ text htext, fun h => ⟨fun place hlt =>
        h place (Nat.lt_succ_of_lt hlt), by simp, by simp⟩⟩
      have hplace := (List.getElem?_eq_some_iff.mp htext).1
      omega
    | some last =>
      constructor
      · rintro ⟨hfront, -, hapart⟩ place hlt text htext hmem
        obtain hlt | rfl := Nat.lt_succ_iff_lt_or_eq.mp hlt
        · exact hfront place hlt text htext hmem
        · cases hlast.symm.trans htext
          exact hapart _ hmem _ (by simp) rfl
      · refine fun h => ⟨fun place hlt => h place (Nat.lt_succ_of_lt hlt), by simp, ?_⟩
        rintro text hmem _ hsame rfl
        obtain rfl : text = last := by simpa using hsame
        exact h count (Nat.lt_succ_self _) _ hlast hmem

/-- The first text that stands in front of itself. -/
theorem firstDuplicate?_eq_some_iff : firstDuplicate? texts = some text ↔
    ∃ before after, texts = before ++ text :: after ∧ before.Nodup ∧ text ∈ before := by
  have hplace : firstDuplicate? texts = some text ↔ ∃ place, texts[place]? = some text ∧
      text ∈ texts.take place ∧ (texts.take place).Nodup := by
    simp only [firstDuplicate?, Option.map_eq_some_iff, Prod.exists, exists_and_right, exists_eq_right,
      List.find?_eq_some_iff_getElem, nodup_take_iff, List.getElem_zipIdx, List.length_zipIdx,
      Nat.zero_add]
    constructor
    · rintro ⟨place, hmem, _, hlt, heq, hbefore⟩
      cases heq
      refine ⟨place, List.getElem?_eq_getElem hlt, by simpa using hmem,
        fun earlier hearlier other hother => ?_⟩
      obtain ⟨_, rfl⟩ := List.getElem?_eq_some_iff.mp hother
      simpa using hbefore earlier hearlier
    · rintro ⟨place, htext, hmem, hbefore⟩
      obtain ⟨hlt, rfl⟩ := List.getElem?_eq_some_iff.mp htext
      refine ⟨place, by simpa using hmem, place, hlt, rfl, fun earlier hearlier => ?_⟩
      simpa using hbefore earlier hearlier texts[earlier] (List.getElem?_eq_getElem _)
  rw [hplace]
  constructor
  · rintro ⟨place, htext, hmem, hnodup⟩
    obtain ⟨hlt, rfl⟩ := List.getElem?_eq_some_iff.mp htext
    exact ⟨texts.take place, texts.drop (place + 1), by simp, hnodup, hmem⟩
  · rintro ⟨before, after, rfl, hnodup, hmem⟩
    exact ⟨before.length, by simp, by simpa using hmem, by simpa using hnodup⟩

theorem firstDuplicate?_eq_none_iff : firstDuplicate? texts = none ↔ texts.Nodup := by
  refine ⟨firstDuplicate?_eq_none, fun h => Option.eq_none_iff_forall_ne_some.mpr fun text htext => ?_⟩
  obtain ⟨before, after, rfl, -, hmem⟩ := firstDuplicate?_eq_some_iff.mp htext
  exact (List.nodup_append.mp h).2.2 text hmem text List.mem_cons_self rfl

end

namespace Dataset

-- ---------------------------------------------------------------------------
-- Records
-- ---------------------------------------------------------------------------

/-- A record with a number for each of the names. -/
structure IsRow (names record : List String) : Prop where
  length_eq : record.length = names.length
  numeric : ∀ cell ∈ record, ∃ value, Decimal.read? cell.toList = some value

/-- What is wrong with a record of some number: its length, or else the first cell that is no
number. -/
inductive RowFault (names : List String) (row : Nat) (record : List String) : DatasetError → Prop
  | ragged : record.length ≠ names.length →
      RowFault names row record (.raggedRow row names.length record.length)
  | cell {column : Nat} {name cell : String} : record.length = names.length →
      names[column]? = some name → record[column]? = some cell →
      Decimal.read? cell.toList = none →
      (∀ earlier < column, ∀ other, record[earlier]? = some other →
        ∃ value, Decimal.read? other.toList = some value) →
      RowFault names row record (.notANumber row name cell)

section
variable {names record : List String} {records : List (List String)} {row : Nat}
  {values : List Float} {rows : List (List Float)} {e : DatasetError}

/-- The number in a cell, or the fault of a cell without one. -/
def readCell (row : Nat) (cell : String × String) : Except DatasetError Float :=
  (Decimal.read? cell.2.toList).elim (.error (.notANumber row cell.1 cell.2)) .ok

theorem readCell_eq_ok_iff {cell : String × String} {value : Float} :
    readCell row cell = .ok value ↔ Decimal.read? cell.2.toList = some value := by
  unfold readCell
  cases Decimal.read? cell.2.toList <;> simp

theorem readCell_eq_error_iff {cell : String × String} : readCell row cell = .error e ↔
    Decimal.read? cell.2.toList = none ∧ e = .notANumber row cell.1 cell.2 := by
  unfold readCell
  cases Decimal.read? cell.2.toList <;> simp [eq_comm]

theorem readCells_eq (row : Nat) (cells : List (String × String)) :
    readCells row cells = cells.mapM (readCell row) := by
  rw [readCells]
  refine congrArg (cells.mapM ·) (funext fun cell => ?_)
  unfold readCell
  dsimp only
  cases Decimal.read? cell.2.toList <;> rfl

theorem readCells_eq_ok_iff {cells : List (String × String)} : readCells row cells = .ok values ↔
    cells.map (fun cell => Decimal.read? cell.2.toList) = values.map some := by
  simp only [readCells_eq, mapM_eq_ok_iff, List.ext_getElem?_iff, List.getElem?_map]
  refine forall_congr' fun place => ?_
  cases cells[place]? <;> cases values[place]? <;> simp [readCell_eq_ok_iff]

theorem readRecord_eq_ok_iff : readRecord names row record = .ok values ↔
    record.length = names.length ∧
      record.map (fun cell => Decimal.read? cell.toList) = values.map some := by
  rw [readRecord]
  split
  · simp [*]
  · rename_i hlength
    have hlength := not_not.mp hlength
    have hcells : record.map (fun cell => Decimal.read? cell.toList) =
        (names.zip record).map fun cell => Decimal.read? cell.2.toList := by
      nth_rewrite 1 [← List.map_snd_zip hlength.le]
      exact List.map_map
    rw [readCells_eq_ok_iff, hcells, and_iff_right hlength]

theorem readRecord_eq_error_iff :
    readRecord names row record = .error e ↔ RowFault names row record e := by
  rw [readRecord]
  split
  · rename_i hlength
    constructor
    · intro h
      cases h
      exact .ragged hlength
    · intro h
      cases h with
      | ragged => rfl
      | cell h => exact absurd h hlength
  · rename_i hlength
    have hlength := not_not.mp hlength
    have hname {place : Nat} {cell : String} (h : record[place]? = some cell) :
        ∃ name, names[place]? = some name :=
      ⟨_, List.getElem?_eq_getElem (hlength ▸ (List.getElem?_eq_some_iff.mp h).1)⟩
    rw [readCells_eq, mapM_eq_error_iff]
    constructor
    · rintro ⟨place, ⟨name, cell⟩, hfound, hfault, hearlier⟩
      obtain ⟨hn, hc⟩ := List.getElem?_zip_eq_some.mp hfound
      obtain ⟨hnone, rfl⟩ := readCell_eq_error_iff.mp hfault
      refine .cell hlength hn hc hnone fun earlier hlt other hother => ?_
      obtain ⟨before, hbefore⟩ := hname hother
      obtain ⟨value, hvalue⟩ := hearlier earlier hlt (before, other)
        (List.getElem?_zip_eq_some.mpr ⟨hbefore, hother⟩)
      rw [readCell_eq_ok_iff] at hvalue
      exact ⟨value, hvalue⟩
    · intro h
      cases h with
      | ragged h => exact absurd hlength h
      | @cell column name cell _ hn hc hnone hearlier =>
        refine ⟨column, (name, cell), List.getElem?_zip_eq_some.mpr ⟨hn, hc⟩,
          readCell_eq_error_iff.mpr ⟨hnone, rfl⟩, fun earlier hlt other hother => ?_⟩
        obtain ⟨value, hvalue⟩ :=
          hearlier earlier hlt other.2 (List.getElem?_zip_eq_some.mp hother).2
        exact ⟨value, readCell_eq_ok_iff.mpr hvalue⟩

theorem exists_readRecord_iff :
    (∃ values, readRecord names row record = .ok values) ↔ IsRow names record := by
  constructor
  · rintro ⟨values, h⟩
    obtain ⟨hlength, hvalues⟩ := readRecord_eq_ok_iff.mp h
    refine ⟨hlength, fun cell hcell => ?_⟩
    have hmem : Decimal.read? cell.toList ∈ values.map some := hvalues ▸ List.mem_map_of_mem hcell
    obtain ⟨value, -, hvalue⟩ := List.mem_map.mp hmem
    exact ⟨value, hvalue.symm⟩
  · intro h
    cases hread : readRecord names row record with
    | ok values => exact ⟨values, rfl⟩
    | error e =>
      cases readRecord_eq_error_iff.mp hread with
      | ragged hlength => exact absurd h.length_eq hlength
      | cell _ _ hcell hnone _ =>
        obtain ⟨value, hvalue⟩ := h.numeric _ (List.mem_of_getElem? hcell)
        rw [hnone] at hvalue
        cases hvalue

/-- Records that all are rows, by what their cells read as. -/
theorem readRecords_eq_ok_iff : readRecords names records = .ok rows ↔
    (∀ record ∈ records, record.length = names.length) ∧
      records.map (·.map fun cell => Decimal.read? cell.toList) = rows.map (·.map some) := by
  have hmem : (∀ record ∈ records, record.length = names.length) ↔
      ∀ place : Nat, ∀ record ∈ records[place]?, record.length = names.length := by
    simp only [List.mem_iff_getElem?, forall_exists_index]
    exact forall_comm
  simp only [readRecords, mapM_eq_ok_iff, hmem, List.ext_getElem?_iff, List.getElem?_map,
    List.getElem?_zipIdx, ← forall_and]
  refine forall_congr' fun place => ?_
  cases records[place]? <;> cases rows[place]? <;> simp [readRecord_eq_ok_iff]

theorem exists_readRecords_iff :
    (∃ rows, readRecords names records = .ok rows) ↔ ∀ record ∈ records, IsRow names record := by
  simp only [readRecords, exists_mapM_iff, exists_readRecord_iff, Prod.forall,
    List.mem_zipIdx_iff_getElem?]
  constructor
  · intro h record hmem
    obtain ⟨place, hplace⟩ := List.mem_iff_getElem?.mp hmem
    exact h record place hplace
  · exact fun h record place hplace => h record (List.mem_of_getElem? hplace)

theorem readRecords_eq_error_iff : readRecords names records = .error e ↔
    ∃ place record, records[place]? = some record ∧ RowFault names (place + 1) record e ∧
      ∀ earlier < place, ∀ other, records[earlier]? = some other → IsRow names other := by
  have hplace {place : Nat} {record : List String} {number : Nat} :
      records.zipIdx[place]? = some (record, number) ↔
        records[place]? = some record ∧ place = number := by
    simp [List.getElem?_zipIdx]
  simp only [readRecords, mapM_eq_error_iff, FirstFault, exists_readRecord_iff,
    readRecord_eq_error_iff, Prod.forall, Prod.exists, hplace]
  constructor
  · rintro ⟨place, record, _, ⟨hrecord, rfl⟩, hfault, hearlier⟩
    exact ⟨place, record, hrecord, hfault, fun earlier hlt other hother =>
      hearlier earlier hlt other earlier ⟨hother, rfl⟩⟩
  · rintro ⟨place, record, hrecord, hfault, hearlier⟩
    exact ⟨place, record, place, ⟨hrecord, rfl⟩, hfault, fun earlier hlt other _ hother =>
      hearlier earlier hlt other hother.1⟩

end

-- ---------------------------------------------------------------------------
-- Columns
-- ---------------------------------------------------------------------------

section
variable {names : List String} {rows : List (List Float)} {columns : List Column} {count : Nat}

theorem map_some_filterMap {α β : Type} {f : α → Option β} {items : List α}
    (h : ∀ item ∈ items, (f item).isSome = true) : (items.filterMap f).map some = items.map f := by
  induction items with
  | nil => rfl
  | cons item rest ih =>
    obtain ⟨hitem, hrest⟩ := List.forall_mem_cons.mp h
    obtain ⟨result, hresult⟩ := Option.isSome_iff_exists.mp hitem
    rw [List.filterMap_cons_some hresult, List.map_cons, List.map_cons, ih hrest, hresult]

/-- Columns of one length make a dataset unless a name is repeated. -/
theorem ofColumns_eq (hne : columns ≠ []) (hlength : ∀ c ∈ columns, c.values.length = count) :
    (firstDuplicate? (columns.map (·.name))).elim
      (∃ d, ofColumns columns = .ok d ∧ d.columns = columns ∧ d.rows = count)
      (fun name => ofColumns columns = .error (.duplicateColumn name)) := by
  obtain ⟨first, rest, rfl⟩ := List.exists_cons_of_ne_nil hne
  have hfirst := hlength first List.mem_cons_self
  have heven : (first :: rest).find? (fun c => c.values.length != first.values.length) = none := by
    rw [List.find?_eq_none, hfirst]
    exact fun c hc => by simp [hlength c hc]
  generalize hresult : ofColumns (first :: rest) = result
  unfold ofColumns at hresult
  dsimp only at hresult
  split at hresult
  · rename_i odd hodd
    cases heven.symm.trans hodd
  · split at hresult
    · rename_i name hname
      rw [hname]
      exact hresult.symm
    · rename_i hnone
      rw [hnone]
      exact ⟨_, hresult.symm, rfl, hfirst⟩

/-- The columns of rows, from top to bottom. -/
def transpose (width : Nat) (rows : List (List Float)) : List (List Float) :=
  (List.range width).map fun column => rows.filterMap (·[column]?)

/-- In rows one after another, those in front of a cell have a width each. -/
theorem getElem?_flatten {α : Type} {rows : List (List α)} {width column : Nat}
    (h : ∀ row ∈ rows, row.length = width) (hcolumn : column < width) (row : Nat) :
    rows.flatten[row * width + column]? = rows[row]?.bind (·[column]?) := by
  induction rows generalizing row with
  | nil => simp
  | cons first rest ih =>
    obtain ⟨hfirst, hrest⟩ := List.forall_mem_cons.mp h
    cases row with
    | zero =>
      have hplace : 0 * width + column < first.length := by omega
      rw [List.flatten_cons, List.getElem?_append_left hplace, Nat.zero_mul, Nat.zero_add]
      rfl
    | succ row =>
      have hplace : (row + 1) * width + column = first.length + (row * width + column) := by
        rw [hfirst, Nat.succ_mul, Nat.add_comm (row * width), Nat.add_assoc]
      rw [hplace, List.flatten_cons, List.getElem?_append_right (Nat.le_add_right _ _),
        Nat.add_sub_cancel_left, ih hrest, List.getElem?_cons_succ]

theorem length_flatten_of_even {α : Type} {rows : List (List α)} {width : Nat}
    (h : ∀ row ∈ rows, row.length = width) : rows.flatten.length = rows.length * width := by
  rw [List.length_flatten, List.map_congr_left h, List.map_const', List.sum_replicate,
    smul_eq_mul]

theorem map_some_column {width column : Nat} (hlength : ∀ row ∈ rows, row.length = width)
    (h : column < width) : (rows.filterMap (·[column]?)).map some = rows.map (·[column]?) :=
  map_some_filterMap fun row hrow => by simp [hlength row hrow, h]

theorem RowMajor.some_cell (m : RowMajor) (row : Fin m.rows) (column : Fin m.width) :
    some (m.cell row column) = m.cells[row * m.width + column]? :=
  (Array.getElem?_eq_getElem (m.place_lt row column)).symm

/-- Even rows one after another fill their shape, whose columns are theirs. -/
theorem RowMajor.ofShape_flatten {width : Nat} (h : ∀ row ∈ rows, row.length = width) :
    ∃ m, ofShape rows.length width rows.flatten.toArray = .ok m ∧
      m.columns = transpose width rows := by
  have hsize : rows.flatten.toArray.size = rows.length * width := length_flatten_of_even h
  refine ⟨_, dif_pos hsize, List.ext_getElem (by simp [columns, transpose]) fun column hc _ => ?_⟩
  have hcolumn : column < width := by simpa [columns] using hc
  refine List.map_injective_iff.mpr (Option.some_injective _) ?_
  simp only [columns, transpose, List.getElem_ofFn, List.getElem_map, List.getElem_range,
    map_some_column h hcolumn, List.map_ofFn]
  refine List.ext_getElem (by simp) fun row hrow _ => ?_
  simp only [List.getElem_ofFn, Function.comp_apply, RowMajor.some_cell, List.getElem?_toArray,
    getElem?_flatten h hcolumn, List.getElem_map]
  rw [List.getElem?_eq_getElem (by simpa using hrow), Option.bind_some]

/-- The columns of rows that are as long as there are names. -/
def columnsOf (names : List String) (rows : List (List Float)) : List Column :=
  (names.zip (transpose names.length rows)).map fun column => ⟨column.1, column.2⟩

theorem map_name_columnsOf (names : List String) (rows : List (List Float)) :
    (columnsOf names rows).map (·.name) = names := by
  unfold columnsOf
  rw [List.map_map]
  exact List.map_fst_zip (by simp [transpose])

theorem getElem?_columnsOf (names : List String) (rows : List (List Float)) (column : Nat) :
    (columnsOf names rows)[column]? =
      names[column]?.map fun name => ⟨name, rows.filterMap (·[column]?)⟩ := by
  by_cases h : column < names.length
  · simp [columnsOf, transpose, h]
  · simp [columnsOf, transpose, h]

theorem ofMatrix_eq (hne : names ≠ []) (rows : List (List Float)) :
    ofMatrix names (transpose names.length rows) = ofColumns (columnsOf names rows) := by
  rw [ofMatrix, if_neg (by simpa using hne), if_neg (by simp [transpose])]
  rfl

theorem length_columnsOf (hlength : ∀ row ∈ rows, row.length = names.length) :
    ∀ c ∈ columnsOf names rows, c.values.length = rows.length := by
  intro c hc
  obtain ⟨column, hcolumn⟩ := List.mem_iff_getElem?.mp hc
  rw [getElem?_columnsOf] at hcolumn
  obtain ⟨name, hname, rfl⟩ := Option.map_eq_some_iff.mp hcolumn
  have hmap := map_some_column hlength (List.getElem?_eq_some_iff.mp hname).1
  simpa using congrArg List.length hmap

end

-- ---------------------------------------------------------------------------
-- Datasets
-- ---------------------------------------------------------------------------

section
variable {names : List String} {records : List (List String)} {rows : List (List Float)}
  {e : DatasetError} {d : Dataset}

/-- The numbers of a row are those in the cells of its record. -/
theorem map_some_row (h : readRecords names records = .ok rows) (row : Nat) :
    rows[row]?.map (·.map some) = records[row]?.map (·.map fun cell => Decimal.read? cell.toList) := by
  have hvalues := congrArg (·[row]?) (readRecords_eq_ok_iff.mp h).2
  simpa using hvalues.symm

theorem length_of_readRecords (h : readRecords names records = .ok rows) :
    ∀ row ∈ rows, row.length = names.length := by
  intro values hmem
  obtain ⟨row, hrow⟩ := List.mem_iff_getElem?.mp hmem
  have hvalues := map_some_row h row
  rw [hrow, Option.map_some] at hvalues
  obtain ⟨record, hrecord, hcells⟩ := Option.map_eq_some_iff.mp hvalues.symm
  have hlength := congrArg List.length hcells
  rw [List.length_map, List.length_map] at hlength
  rw [← hlength]
  exact (readRecords_eq_ok_iff.mp h).1 record (List.mem_of_getElem? hrecord)

/-- The cells of rows fill the shape of rows and names, so that no fault comes from it. -/
theorem ofRecords_eq (h : readRecords names records = .ok rows) :
    ofRecords names records = ofMatrix names (transpose names.length rows) := by
  obtain ⟨m, hm, hcolumns⟩ := RowMajor.ofShape_flatten (length_of_readRecords h)
  rw [ofRecords, h, ← hcolumns]
  simp only [bind, Except.bind, hm]

/-- What loading comes to: the fault of a record, names without any or with one twice, or a dataset. -/
inductive Loads (names : List String) (records : List (List String)) :
    Except DatasetError Dataset → Prop
  | faulty {e : DatasetError} : readRecords names records = .error e → Loads names records (.error e)
  | unnamed {rows : List (List Float)} : readRecords names records = .ok rows → names = [] →
      Loads names records (.error .noColumns)
  | repeated {rows : List (List Float)} {name : String} : readRecords names records = .ok rows →
      names ≠ [] → firstDuplicate? names = some name →
      Loads names records (.error (.duplicateColumn name))
  | loaded {rows : List (List Float)} {d : Dataset} : readRecords names records = .ok rows →
      names ≠ [] → firstDuplicate? names = none → d.columns = columnsOf names rows →
      d.rows = rows.length → Loads names records (.ok d)

theorem loads_ofRecords (names : List String) (records : List (List String)) :
    Loads names records (ofRecords names records) := by
  cases hread : readRecords names records with
  | error e =>
    have hfault : ofRecords names records = .error e := by
      rw [ofRecords, hread]
      rfl
    exact hfault ▸ .faulty hread
  | ok rows =>
    by_cases hne : names = []
    · have hnone : ofRecords names records = .error .noColumns := by
        rw [ofRecords_eq hread, hne]
        rfl
      exact hnone ▸ .unnamed hread hne
    · have hrows : ofRecords names records = ofColumns (columnsOf names rows) := by
        rw [ofRecords_eq hread, ofMatrix_eq hne]
      have hcolumns : columnsOf names rows ≠ [] := fun hnil => hne <| by
        rw [← map_name_columnsOf names rows, hnil, List.map_nil]
      have hmade := ofColumns_eq hcolumns (length_columnsOf (length_of_readRecords hread))
      rw [map_name_columnsOf, ← hrows] at hmade
      cases hname : firstDuplicate? names with
      | some name =>
        rw [hname] at hmade
        exact hmade ▸ .repeated hread hne hname
      | none =>
        rw [hname] at hmade
        obtain ⟨d, hd, hcolumns, hcount⟩ := hmade
        exact hd ▸ .loaded hread hne hname hcolumns hcount

theorem cell?_of_rows (h : readRecords names records = .ok rows)
    (hd : d.columns = columnsOf names rows) (column row : Nat) : d.cell? column row =
      (records[row]?.bind (·[column]?)).bind fun cell => Decimal.read? cell.toList := by
  rw [cell?, hd, getElem?_columnsOf]
  by_cases hc : column < names.length
  · rw [List.getElem?_eq_getElem hc, Option.map_some, Option.bind_some]
    have hcolumn := congrArg (·[row]?) (map_some_column (length_of_readRecords h) hc)
    have hrow := map_some_row h row
    simp only [List.getElem?_map] at hcolumn
    cases hrecord : records[row]? with
    | none =>
      rw [hrecord, Option.map_none, Option.map_eq_none_iff] at hrow
      rw [hrow, Option.map_none, Option.map_eq_none_iff] at hcolumn
      rw [hcolumn]
      rfl
    | some record =>
      rw [hrecord, Option.map_some] at hrow
      obtain ⟨values, hvalues, hcells⟩ := Option.map_eq_some_iff.mp hrow
      rw [hvalues, Option.map_some] at hcolumn
      obtain ⟨value, hvalue, hsome⟩ := Option.map_eq_some_iff.mp hcolumn
      have hcell := congrArg (·[column]?) hcells
      simp only [List.getElem?_map, ← hsome, Option.map_some] at hcell
      obtain ⟨cell, hcell, hread⟩ := Option.map_eq_some_iff.mp hcell.symm
      rw [hvalue, Option.bind_some, hcell, Option.bind_some, hread]
  · rw [List.getElem?_eq_none (not_lt.mp hc), Option.map_none, Option.bind_none]
    cases hrecord : records[row]? with
    | none => rfl
    | some record =>
      have hlength := (readRecords_eq_ok_iff.mp h).1 record (List.mem_of_getElem? hrecord)
      rw [Option.bind_some, List.getElem?_eq_none (hlength ▸ not_lt.mp hc), Option.bind_none]

theorem exists_ofRecords_iff : (∃ d, ofRecords names records = .ok d) ↔
    names ≠ [] ∧ names.Nodup ∧ ∀ record ∈ records, IsRow names record := by
  rw [← exists_readRecords_iff, ← firstDuplicate?_eq_none_iff]
  have hloads := loads_ofRecords names records
  constructor
  · rintro ⟨d, hd⟩
    rw [hd] at hloads
    cases hloads with
    | loaded hread hne hname => exact ⟨hne, hname, _, hread⟩
  · rintro ⟨hne, hname, rows, hread⟩
    generalize ofRecords names records = outcome at hloads
    cases hloads with
    | faulty hfault => cases hread.symm.trans hfault
    | unnamed _ hnil => exact absurd hnil hne
    | repeated _ _ hsome => cases hname.symm.trans hsome
    | loaded => exact ⟨_, rfl⟩

theorem ofRecords_ok (h : ofRecords names records = .ok d) : d.names = names ∧
    d.rows = records.length ∧ ∀ column row, d.cell? column row =
      (records[row]?.bind (·[column]?)).bind fun cell => Decimal.read? cell.toList := by
  have hloads := loads_ofRecords names records
  rw [h] at hloads
  cases hloads with
  | @loaded rows _ hread _ _ hcolumns hcount =>
    refine ⟨?_, ?_, cell?_of_rows hread hcolumns⟩
    · rw [Dataset.names, hcolumns, map_name_columnsOf]
    · have hlength := congrArg List.length (readRecords_eq_ok_iff.mp hread).2
      rw [List.length_map, List.length_map] at hlength
      rw [hcount, hlength]

theorem ofRecords_eq_error_iff : ofRecords names records = .error e ↔
    readRecords names records = .error e ∨
      (∃ rows, readRecords names records = .ok rows) ∧
        (names = [] ∧ e = .noColumns ∨
          ∃ name, firstDuplicate? names = some name ∧ e = .duplicateColumn name) := by
  have hloads := loads_ofRecords names records
  constructor
  · intro h
    rw [h] at hloads
    cases hloads with
    | faulty hfault => exact .inl hfault
    | unnamed hread hnil => exact .inr ⟨⟨_, hread⟩, .inl ⟨hnil, rfl⟩⟩
    | repeated hread _ hname => exact .inr ⟨⟨_, hread⟩, .inr ⟨_, hname, rfl⟩⟩
  · generalize ofRecords names records = outcome at hloads
    rintro (h | ⟨⟨rows, hrows⟩, ⟨hnil, rfl⟩ | ⟨name, hname, rfl⟩⟩)
    · cases hloads with
      | faulty hfault =>
        cases hfault.symm.trans h
        rfl
      | unnamed hread | repeated hread | loaded hread => cases hread.symm.trans h
    · cases hloads with
      | faulty hfault => cases hrows.symm.trans hfault
      | unnamed => rfl
      | repeated _ hne | loaded _ hne => exact absurd hnil hne
    · cases hloads with
      | faulty hfault => cases hrows.symm.trans hfault
      | unnamed _ hnil =>
        rw [hnil] at hname
        cases hname
      | repeated _ _ hsome =>
        cases hsome.symm.trans hname
        rfl
      | loaded _ _ hnone => cases hname.symm.trans hnone

/-- A text whose header and records are these, without blanks around their cells. A text without any
record has a header without names. -/
def Spelled (bytes : List UInt8) (names : List String) (records : List (List String)) : Prop :=
  (Csv.records bytes).map decodeRecord? = (names :: records).map some ∨
    Csv.records bytes = [] ∧ names = [] ∧ records = []

theorem ofCsv_eq {bytes : List UInt8} (h : Spelled bytes names records) :
    ofCsv bytes = ofRecords names records := by
  obtain h | ⟨h, rfl, rfl⟩ := h
  · have hall : (records.map some).mapM id = some records := by
      rw [List.mapM_map]
      exact (List.mapM_pure (m := Option) (f := id)).trans (by rw [List.map_id]; rfl)
    rw [ofCsv, h, List.map_cons]
    simp only [hall]
  · rw [ofCsv, h]
    rfl

/-- Records make a dataset exactly if there are names, none of them twice, and all records are rows.
It has a column for each name and a row for each record, and its values are the numbers in the cells.
Otherwise the fault is that of the first record with one, or else that of the names. -/
theorem ofRecords_spelled (names : List String) (records : List (List String)) :
    ((∃ d, ofRecords names records = .ok d) ↔
      names ≠ [] ∧ names.Nodup ∧ ∀ record ∈ records, IsRow names record) ∧
    (∀ d, ofRecords names records = .ok d →
      d.names = names ∧ d.rows = records.length ∧
        ∀ column row, d.cell? column row =
          (records[row]?.bind (·[column]?)).bind fun cell => Decimal.read? cell.toList) ∧
    (∀ e, ofRecords names records = .error e ↔
      (∃ place record, records[place]? = some record ∧ RowFault names (place + 1) record e ∧
        ∀ earlier < place, ∀ other, records[earlier]? = some other → IsRow names other) ∨
      (∀ record ∈ records, IsRow names record) ∧
        (names = [] ∧ e = .noColumns ∨
          ∃ before name after, names = before ++ name :: after ∧ before.Nodup ∧ name ∈ before ∧
            e = .duplicateColumn name)) ∧
    ∀ bytes, Spelled bytes names records → ofCsv bytes = ofRecords names records := by
  refine ⟨exists_ofRecords_iff, fun d => ofRecords_ok, fun e => ?_, fun bytes => ofCsv_eq⟩
  rw [ofRecords_eq_error_iff, readRecords_eq_error_iff, exists_readRecords_iff]
  simp only [firstDuplicate?_eq_some_iff]
  refine or_congr_right (and_congr_right' (or_congr_right ⟨?_, ?_⟩))
  · rintro ⟨name, ⟨before, after, hnames, hnodup, hmem⟩, he⟩
    exact ⟨before, name, after, hnames, hnodup, hmem, he⟩
  · rintro ⟨before, name, after, hnames, hnodup, hmem, he⟩
    exact ⟨name, ⟨before, after, hnames, hnodup, hmem⟩, he⟩

theorem IsRow.of_isSome (hlength : record.length = names.length)
    (h : ∀ cell ∈ record, (Decimal.read? cell.toList).isSome = true) : IsRow names record where
  length_eq := hlength
  numeric cell hcell := Option.isSome_iff_exists.mp (h cell hcell)

def ages : List (List String) :=
  [["18", "2.5"], ["21", "-3"], ["30", "1e1"]]

/-- A table of three rows by two columns, as records and as text, and with a fault in its second
row. -/
theorem ofRecords_spelled_ages :
    (∃ d, ofRecords ["age", "score"] ages = .ok d ∧ d.names = ["age", "score"] ∧ d.rows = 3 ∧
      d.cell? 1 2 = Decimal.read? "1e1".toList ∧ d.cell? 2 1 = none) ∧
    ofRecords ["age", "score"] [["18", "2.5"], ["21"], ["old", "1"]] = .error (.raggedRow 2 2 1) ∧
    Spelled "age,score\n18, 2.5\n21,-3\n30,1e1\n".toUTF8.toList ["age", "score"] ages ∧
    ofCsv "age,score\n18, 2.5\n21,-3\n30,1e1\n".toUTF8.toList =
      ofRecords ["age", "score"] ages := by
  obtain ⟨hloads, hcells, -, htext⟩ := ofRecords_spelled ["age", "score"] ages
  have hrows : ∀ record ∈ ages, IsRow ["age", "score"] record := by
    refine List.forall_mem_cons.mpr ⟨?_, List.forall_mem_cons.mpr ⟨?_,
      List.forall_mem_singleton.mpr ?_⟩⟩
    all_goals exact .of_isSome rfl (by decide +kernel)
  obtain ⟨d, hd⟩ := hloads.mpr ⟨by decide, by decide, hrows⟩
  obtain ⟨hnames, hcount, hcell⟩ := hcells d hd
  have hspelled : Spelled "age,score\n18, 2.5\n21,-3\n30,1e1\n".toUTF8.toList ["age", "score"]
      ages := .inl (by decide +kernel)
  have hragged : ofRecords ["age", "score"] [["18", "2.5"], ["21"], ["old", "1"]] =
      .error (.raggedRow 2 2 1) := by
    obtain ⟨-, -, hfault, -⟩ :=
      ofRecords_spelled ["age", "score"] [["18", "2.5"], ["21"], ["old", "1"]]
    refine (hfault _).mpr (.inl ⟨1, ["21"], rfl, .ragged (by decide), fun earlier hlt => ?_⟩)
    obtain rfl : earlier = 0 := by omega
    rintro _ ⟨⟩
    exact .of_isSome rfl (by decide +kernel)
  exact ⟨⟨d, hd, hnames, hcount, hcell 1 2, hcell 2 1⟩, hragged, hspelled, htext _ hspelled⟩

/-- A faulty record goes before a repeated name, and its length before its cells. -/
example : ofRecords ["age", "age"] [["1", "2"], ["old"]] = .error (.raggedRow 2 2 1) := by
  rfl

end

end Dataset

end FairProgram
