import TinyOlap.Execution.RowOperators
import TinyOlap.Execution.ScanResult

/-!
# Inserted rows under a scan

A scan reads some columns of a part, under the names of the schema. What it finds in a
part that was written for a batch is the batch's rows, with the cells of these columns.
-/

set_option autoImplicit false

namespace TinyOlap.Execution

open Library Library.BlockLayout Catalog Arrow Storage Physical

/-- **A written part holds the columns of its batch** that a scan asks for. -/
theorem exists_partHolds {lz4 : Lz4} {schema : TableSchema} {batch : RecordBatch}
    {partDir : PartDir} {columns : List ColumnSchema} (distinct : schema.Distinct)
    (written : WrittenPart lz4 schema batch partDir) (known : ∀ c ∈ columns, c ∈ schema.columns) :
    ∃ whole, PartHolds lz4 columns partDir whole ∧ whole.numRows = batch.numRows ∧
      whole.rows = (tableRows schema batch).map (selectCells (columns.map ColumnSchema.name)) := by
  let named : RecordBatch :=
    { fields := schema.columns.map Field.ofColumn
      columns := batch.columns
      numRows := batch.numRows
      typed := by
        rw [written.typed, List.map_map]
        rfl
      lengths := batch.lengths }
  have names : named.names = schema.columns.map ColumnSchema.name := by
    simp only [named, RecordBatch.names, List.map_map]
    rfl
  have present : ∀ name ∈ columns.map ColumnSchema.name, name ∈ named.names := by
    intro name member
    obtain ⟨c, here, rfl⟩ := List.mem_map.mp member
    rw [names]
    exact List.mem_map_of_mem (known c here)
  obtain ⟨whole, _, fields, arrays, numRows, rows⟩ := projectBatch_eq present
  have field : ∀ c ∈ columns,
      named.fields.find? (fun f => f.name = c.name) = some (Field.ofColumn c) := by
    intro c member
    have found := TableSchema.find_of_mem distinct (known c member)
    rw [TableSchema.find] at found
    simp only [named, List.find?_map]
    exact Option.map_eq_some_iff.mpr ⟨c, found, rfl⟩
  have column : ∀ c ∈ columns, ∃ a, named.columnByName c.name = some a ∧
      (c, a) ∈ schema.columns.zip batch.columns := by
    intro c member
    obtain ⟨idx, position, here⟩ := RecordBatch.findIdx?_of_find? (field c member)
    obtain ⟨a, array, _⟩ := RecordBatch.getElem?_columns here
    have byName := RecordBatch.columnByName_eq position array
    obtain ⟨f, paired, sameName⟩ := RecordBatch.mem_of_columnByName byName
    rw [List.zip_map_left] at paired
    obtain ⟨⟨d, _⟩, inside, equal⟩ := List.mem_map.mp paired
    cases equal
    -- the column is found by its name
    have found := TableSchema.find_of_mem distinct (List.of_mem_zip inside).1
    rw [show d.name = c.name from sameName,
      TableSchema.find_of_mem distinct (known c member)] at found
    cases found
    exact ⟨_, byName, inside⟩
  have each : List.Forall₂ (fun c a => (c, a) ∈ schema.columns.zip batch.columns) columns
      whole.columns := by
    rw [arrays, List.filterMap_map]
    exact forall₂_filterMap column
  refine ⟨whole, ⟨?_, each.imp fun c a inside => written.stored (c, a) inside, ?_⟩, numRows, ?_⟩
  · rw [fields, List.filterMap_map, ← List.filterMap_eq_map]
    exact List.filterMap_congr field
  · intro a member
    rw [arrays] at member
    obtain ⟨name, _, byName⟩ := List.mem_filterMap.mp member
    obtain ⟨f, paired, _⟩ := RecordBatch.mem_of_columnByName byName
    exact written.offsets a (List.of_mem_zip paired).2
  · rw [rows, RecordBatch.namedRows, names]
    rfl

/-! ## The rows of a part -/

/-- The batches a scan reads from a part. -/
def partBatches (lz4 : Lz4) (columns : List ColumnSchema) (partDir : PartDir) : List RecordBatch :=
  (readPart lz4 columns partDir).filterMap Except.toOption

/-- The rows of a part, with all columns of the schema. -/
def partRows (lz4 : Lz4) (schema : TableSchema) (partDir : PartDir) : List NamedRow :=
  (partBatches lz4 schema.columns partDir).flatMap RecordBatch.namedRows

/-- The cells of a row under some names, with the names. -/
def restrictRow (names : List String) (row : NamedRow) : NamedRow :=
  names.zip (selectCells names row)

theorem partBatches_eq {lz4 : Lz4} {columns : List ColumnSchema} {partDir : PartDir}
    {whole : RecordBatch} (nonempty : columns ≠ []) (holds : PartHolds lz4 columns partDir whole) :
    readPart lz4 columns partDir = (granules whole).map .ok ∧
      partBatches lz4 columns partDir = granules whole := by
  have read := readPart_eq holds nonempty
  refine ⟨read, ?_⟩
  rw [partBatches, read, List.filterMap_map]
  exact List.filterMap_some

/-- The granules of a batch have a row, and the fields and rows of the batch. -/
theorem granules_rows (whole : RecordBatch) :
    (∀ b ∈ granules whole, 0 < b.numRows ∧ b.fields = whole.fields) ∧
      (granules whole).flatMap RecordBatch.namedRows = whole.namedRows := by
  have pos : 0 < granuleSize := granuleSize_pos
  constructor
  · intro b member
    obtain ⟨i, inside, rfl⟩ := List.mem_map.mp member
    have first := (lt_granuleCount pos).mp (List.mem_range.mp inside)
    refine ⟨?_, rfl⟩
    have size : (whole.slice (granuleSize * i) granuleSize).numRows =
      min granuleSize (whole.numRows - granuleSize * i) := rfl
    omega
  · have cut : ∀ i, (whole.slice (granuleSize * i) granuleSize).namedRows =
        (whole.namedRows.drop (granuleSize * i)).take granuleSize := by
      intro i
      have names : (whole.slice (granuleSize * i) granuleSize).names = whole.names := rfl
      rw [RecordBatch.namedRows, RecordBatch.rows_slice, names, RecordBatch.namedRows,
        List.map_take, List.map_drop]
    rw [granules, List.flatMap_map]
    simp only [cut]
    have all := flatMap_granules pos whole.namedRows
    rwa [RecordBatch.namedRows_length] at all

/-- **What a scan of some columns reads of a written part**: batches with a row each, which
together hold the rows of the part under the names of these columns. -/
theorem partBatches_of_written {lz4 : Lz4} {schema : TableSchema} {batch : RecordBatch}
    {partDir : PartDir} {columns : List ColumnSchema} (distinct : schema.Distinct)
    (written : WrittenPart lz4 schema batch partDir) (nonempty : columns ≠ [])
    (known : ∀ c ∈ columns, c ∈ schema.columns) :
    readPart lz4 columns partDir = (partBatches lz4 columns partDir).map .ok ∧
      (∀ b ∈ partBatches lz4 columns partDir,
        0 < b.numRows ∧ b.fields = columns.map Field.ofColumn) ∧
      (partBatches lz4 columns partDir).flatMap RecordBatch.namedRows =
        (tableRows schema batch).map (restrictRow (columns.map ColumnSchema.name)) := by
  obtain ⟨whole, holds, _, rows⟩ := exists_partHolds distinct written known
  obtain ⟨read, same⟩ := partBatches_eq nonempty holds
  obtain ⟨each, all⟩ := granules_rows whole
  rw [same]
  refine ⟨read, fun b member => holds.fields ▸ each b member, ?_⟩
  rw [all, RecordBatch.namedRows, rows, List.map_map]
  have names : whole.names = columns.map ColumnSchema.name := by
    rw [RecordBatch.names, holds.fields, List.map_map]
    rfl
  rw [names]
  rfl

/-- The names that a row has. -/
def HasNames (names : List String) (row : NamedRow) : Prop :=
  ∀ name ∈ names, (row.lookup name).isSome

/-- A restricted row has the same cells under its names. -/
theorem restrictRow_lookup {names : List String} {row : NamedRow} (present : HasNames names row)
    {name : String} (member : name ∈ names) :
    (restrictRow names row).lookup name = row.lookup name := by
  induction names with
  | nil => cases member
  | cons first names ih =>
      obtain ⟨v, found⟩ := Option.isSome_iff_exists.mp (present first List.mem_cons_self)
      have selected : selectCells (first :: names) row = v :: selectCells names row :=
        List.filterMap_cons_some found
      rw [restrictRow, selected, List.zip_cons_cons, List.lookup_cons]
      by_cases same : name = first
      · subst same
        simp [found]
      · rw [beq_eq_false_iff_ne.mpr same]
        exact ih (fun other inside => present other (List.mem_cons_of_mem _ inside))
          ((List.mem_cons.mp member).resolve_left same)

/-- Selected cells depend on the selected names only. -/
theorem selectCells_restrictRow {names selected : List String} {row : NamedRow}
    (present : HasNames names row) (inside : selected ⊆ names) :
    selectCells selected (restrictRow names row) = selectCells selected row :=
  List.filterMap_congr fun _ member => restrictRow_lookup present (inside member)

/-- The rows of a written part have the names of the schema. -/
theorem hasNames_tableRows {lz4 : Lz4} {schema : TableSchema} {batch : RecordBatch}
    {partDir : PartDir} (written : WrittenPart lz4 schema batch partDir) {row : NamedRow}
    (member : row ∈ tableRows schema batch) :
    HasNames (schema.columns.map ColumnSchema.name) row := by
  intro name inside
  obtain ⟨cells, source, rfl⟩ := List.mem_map.mp member
  have sameLength : batch.columns.length = schema.columns.length := by
    simpa using congrArg List.length written.typed
  have width := (RecordBatch.forall₂_of_mem_rowsOf source).length_eq
  rw [List.lookup_isSome_iff]
  obtain ⟨i, here, rfl⟩ := List.getElem_of_mem inside
  have there : i < cells.length := by
    rw [List.length_map] at here
    omega
  exact ⟨((schema.columns.map ColumnSchema.name)[i], cells[i]),
    List.mem_iff_getElem.mpr ⟨i, by simp only [List.length_zip]; omega, by simp⟩, by simp⟩

/-- The rows of a written part are those of its batch. -/
theorem partRows_of_written {lz4 : Lz4} {schema : TableSchema} {batch : RecordBatch}
    {partDir : PartDir} (distinct : schema.Distinct)
    (written : WrittenPart lz4 schema batch partDir) (nonempty : schema.columns ≠ []) :
    partRows lz4 schema partDir = tableRows schema batch := by
  obtain ⟨_, _, rows⟩ := partBatches_of_written distinct written nonempty fun _ member => member
  rw [partRows, rows]
  refine (List.map_congr_left fun row member => ?_).trans (List.map_id _)
  obtain ⟨cells, source, rfl⟩ := List.mem_map.mp member
  have sameLength : batch.columns.length = schema.columns.length := by
    simpa using congrArg List.length written.typed
  have width := (RecordBatch.forall₂_of_mem_rowsOf source).length_eq
  have all : selectCells (schema.columns.map ColumnSchema.name)
      ((schema.columns.map ColumnSchema.name).zip cells) = cells := by
    rw [selectCells]
    exact RecordBatch.filterMap_lookup_zip distinct (by rw [List.length_map]; omega)
  rw [restrictRow, all]
  rfl

/-- A part that was written for the values `5` and `9`. -/
theorem exists_written_two : ∃ (partDir : PartDir) (batch : RecordBatch),
    WrittenPart Lz4.literals numberSchema batch partDir ∧ batch.numRows = 2 := by
  have inserted : ∃ w', TableWriter.insert Lz4.literals (.open numberSchema .dataDir)
      fiveAndNine = (.ok ⟨0, 2⟩, w') := ⟨_, rfl⟩
  obtain ⟨w', accepted⟩ := inserted
  have distinct : numberSchema.Distinct := by decide
  exact ⟨_, _, (TableWriter.insert_eq_ok distinct (by decide) accepted).1.written distinct, rfl⟩

theorem exists_partHolds_two : ∃ (partDir : PartDir) (whole : RecordBatch),
    PartHolds Lz4.literals [⟨"a", .int .i8⟩] partDir whole ∧ whole.numRows = 2 := by
  obtain ⟨partDir, batch, written, two⟩ := exists_written_two
  obtain ⟨whole, holds, numRows, _⟩ :=
    exists_partHolds (by decide) written fun _ member => member
  exact ⟨partDir, whole, holds, numRows.trans two⟩

end TinyOlap.Execution
