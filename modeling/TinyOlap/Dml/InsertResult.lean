import TinyOlap.Execution.StoredRows
import TinyOlap.Main

/-!
# What an INSERT stores

An accepted INSERT stores its rows by position: the value at position `i` of a row goes to
column `i` of the schema. The name of the table and the column list make no difference. An
INSERT that is not accepted leaves the table directory as it was.
-/

set_option autoImplicit false

namespace TinyOlap.Dml

open Library Catalog Arrow Storage Frontend Execution

/-! ## Cells -/

/-- The value a literal has in a column. -/
def literalOf : (t : DataType) → SqlValue → Option t.Native
  | .int t, .number s => Decimal.parseInt t.signed t.top s
  | .f32, .number s => Decimal.parseFloat 8 23 s
  | .f64, .number s => Decimal.parseFloat 11 52 s
  | .bool, .boolean b => some b
  | .str, .singleQuotedString s => some s
  | _, _ => none

/-- The value written in a cell of a column of the type. -/
def cellValue (t : DataType) : Expr → Option Value
  | .value v => (literalOf t v).map (Value.mk (.data t))
  | _ => none

/-- The values written in a row, one for each column of the schema, by position. -/
def writtenRow (schema : TableSchema) (row : List Expr) : List (Option Value) :=
  schema.columns.zipIdx.map fun (c, i) => row[i]?.bind (cellValue c.dataType)

/-- The value of a literal that was parsed. -/
def Parsed.value {α : Type} : Parsed α → Option α
  | .ok a => some a
  | _ => none

section Columns

variable {rows : List (List Expr)} {colIdx : Nat} {colName : String}

/-- A parsed column has the value of each row's cell. -/
theorem parseColumn_eq_ok {α : Type} {expected : String} {parse : SqlValue → Parsed α}
    {meaning : SqlValue → Option α} (means : ∀ v, meaning v = (parse v).value)
    {values : List α} (parsed : parseColumn expected parse rows colIdx colName = .ok values) :
    values.map some = rows.map fun row => row[colIdx]?.bind fun
      | .value v => meaning v
      | _ => none := by
  have cells := Outcome.mapM_eq_ok parsed
  clear parsed
  rw [← List.zipIdx_map_fst 0 rows, List.map_map]
  generalize rows.zipIdx = numbered at cells
  induction cells with
  | nil => rfl
  | @cons entry a numbered values here _ ih =>
      obtain ⟨row, rowIdx⟩ := entry
      rw [List.map_cons, List.map_cons, ih]
      congr 1
      simp only [Function.comp_apply] at here ⊢
      split at here
      · cases here
      · rename_i v cell
        rw [cell, Option.bind_some]
        simp only [means]
        split at here
        · cases here
          rename_i parsed
          rw [parsed]
          rfl
        · cases here
        · cases here
      · cases here

/-- The cells of an array of parsed values. -/
theorem cells_of_parsed {t : DataType} {values : List t.Native} {array : ColumnArray}
    (parsed : values.map some = rows.map fun row => row[colIdx]?.bind fun
      | .value v => literalOf t v
      | _ => none)
    (made : arrayFrom (.data t) values = .ok array) :
    array.1.type = toArrow t ∧
      array.1.cells.map some = rows.map fun row => row[colIdx]?.bind (cellValue t) := by
  unfold arrayFrom at made
  split at made
  · cases made
    refine ⟨rfl, ?_⟩
    calc (values.map (Value.mk (.data t))).map some
        = (values.map some).map (Option.map (Value.mk (.data t))) := by
          rw [List.map_map, List.map_map]
          rfl
      _ = rows.map fun row => row[colIdx]?.bind (cellValue t) := by
          rw [parsed, List.map_map]
          refine List.map_congr_left fun row _ => ?_
          rw [Function.comp_apply]
          match row[colIdx]? with
          | none => rfl
          | some (.value v) => rfl
          | some (.identifier _) | some (.compoundIdentifier _) | some (.binaryOp ..) => rfl
          | some (.unaryOp ..) | some (.function ..) | some .subquery | some (.other ..) => rfl
  · cases made

/-- Numbers are parsed like other literals, and a literal gets its value in a numeric column. -/
theorem exists_parse_number {t : DataType} {fromStr : String → Option t.Native}
    (error : String → String)
    (means : ∀ v, literalOf t v = match v with
      | .number s => fromStr s
      | _ => none) :
    ∃ parse, (∀ rows colIdx colName, parseNumeric fromStr error rows colIdx colName =
      parseColumn "number" parse rows colIdx colName) ∧ ∀ v, literalOf t v = (parse v).value := by
  refine ⟨_, fun _ _ _ => rfl, fun v => ?_⟩
  rw [means]
  cases v with
  | number s => cases read : fromStr s <;> simp only [read, Parsed.value]
  | singleQuotedString s => rfl
  | boolean b => rfl
  | null => rfl
  | other debug => rfl

theorem parseNumeric_eq_ok {t : DataType} {fromStr : String → Option t.Native}
    {error : String → String}
    (means : ∀ v, literalOf t v = match v with
      | .number s => fromStr s
      | _ => none)
    {values : List t.Native} (parsed : parseNumeric fromStr error rows colIdx colName =
      .ok values) :
    values.map some = rows.map fun row => row[colIdx]?.bind fun
      | .value v => literalOf t v
      | _ => none := by
  obtain ⟨parse, same, gives⟩ := exists_parse_number error means
  exact parseColumn_eq_ok gives (same rows colIdx colName ▸ parsed)

/-- A column array has the type of its column and the values written in its cells. -/
theorem buildColumnArray_eq_ok {col : ColumnSchema} {array : ColumnArray}
    (built : buildColumnArray col colIdx rows = .ok array) :
    array.1.type = toArrow col.dataType ∧
      array.1.cells.map some = rows.map fun row => row[colIdx]?.bind (cellValue col.dataType) := by
  obtain ⟨name, dataType⟩ := col
  match dataType with
  | .int t =>
      obtain ⟨values, parsed, made⟩ := Outcome.bind_eq_ok.mp built
      exact cells_of_parsed (parseNumeric_eq_ok (t := .int t) (by rintro ⟨⟩ <;> rfl) parsed) made
  | .f32 =>
      obtain ⟨values, parsed, made⟩ := Outcome.bind_eq_ok.mp built
      exact cells_of_parsed (parseNumeric_eq_ok (t := .f32) (by rintro ⟨⟩ <;> rfl) parsed) made
  | .f64 =>
      obtain ⟨values, parsed, made⟩ := Outcome.bind_eq_ok.mp built
      exact cells_of_parsed (parseNumeric_eq_ok (t := .f64) (by rintro ⟨⟩ <;> rfl) parsed) made
  | .bool =>
      obtain ⟨values, parsed, made⟩ := Outcome.bind_eq_ok.mp built
      exact cells_of_parsed (t := .bool) (parseColumn_eq_ok (by rintro ⟨⟩ <;> rfl) parsed) made
  | .str =>
      obtain ⟨values, parsed, made⟩ := Outcome.bind_eq_ok.mp built
      exact cells_of_parsed (t := .str) (parseColumn_eq_ok (by rintro ⟨⟩ <;> rfl) parsed) made

end Columns

/-! ## Rows -/

/-- Columns that each give their cell of every row, put together row by row. -/
theorem rowsOf_written {rows : List (List Expr)} {arrays : List ArrayRef}
    {cells : List (List Expr → Option Value)}
    (each : List.Forall₂ (fun (a : ArrayRef) cell => a.cells.map some = rows.map cell)
      arrays cells) :
    (RecordBatch.rowsOf rows.length arrays).map (List.map some) =
      rows.map fun row => cells.map fun cell => cell row := by
  induction each with
  | nil => simp [RecordBatch.rowsOf, List.map_const']
  | @cons a cell arrays cells here _ ih =>
      calc (List.zipWith List.cons a.cells (RecordBatch.rowsOf rows.length arrays)).map
            (List.map some)
          = List.zipWith List.cons (a.cells.map some)
              ((RecordBatch.rowsOf rows.length arrays).map (List.map some)) := by
            rw [List.map_zipWith, List.zipWith_map]
            rfl
        _ = rows.map fun row => (cell :: cells).map fun cell => cell row := by
            rw [here, ih, List.zipWith_map, List.zipWith_self]
            rfl

/-- **A built batch has the written rows**, and all of them are as wide as the schema. -/
theorem buildRecordBatch_eq_ok {stmt : Statement} {schema : TableSchema} {batch : InsertBatch}
    (built : buildRecordBatch stmt schema = .ok batch) :
    ∃ rows, extractRows stmt = .ok rows ∧ (∀ row ∈ rows, row.length = schema.columns.length) ∧
      batch.fields = schema.columns.map Field.ofColumn ∧ batch.numRows = rows.length ∧
      batch.rows.map (List.map some) = rows.map (writtenRow schema) := by
  obtain ⟨rows, extracted, built⟩ := Outcome.bind_eq_ok.mp built
  obtain ⟨_, widths, built⟩ := Outcome.bind_eq_ok.mp built
  obtain ⟨arrays, arraysBuilt, made⟩ := Outcome.bind_eq_ok.mp built
  have each := (Outcome.mapM_eq_ok arraysBuilt).imp fun entry array built =>
    buildColumnArray_eq_ok built
  have cells : List.Forall₂ (fun (a : ArrayRef) cell => a.cells.map some = rows.map cell)
      (arrays.map Subtype.val)
      (schema.columns.zipIdx.map fun (c, i) row => row[i]?.bind (cellValue c.dataType)) := by
    rw [List.forall₂_map_left_iff, List.forall₂_map_right_iff]
    exact each.flip.imp fun _ _ both => both.2
  unfold makeBatch at made
  split at made
  · rename_i whole tried
    cases made
    obtain ⟨fields, columns, nonempty⟩ := RecordBatch.of_tryNew_eq_ok tried
    have numRows : whole.numRows = rows.length := by
      obtain ⟨a, member⟩ := List.exists_mem_of_ne_nil _ nonempty
      obtain ⟨cell, _, here⟩ := exists_of_mem_left cells member
      have length := congrArg List.length here
      rw [List.length_map, List.length_map, ArrayRef.cells_length] at length
      exact (whole.lengths a (columns ▸ member)).symm.trans length
    refine ⟨rows, extracted, fun row member => ?_, fields, numRows, ?_⟩
    · rw [← List.zipIdx_map_fst 0 rows] at member
      obtain ⟨⟨_, i⟩, inside, rfl⟩ := List.mem_map.mp member
      have checked := Outcome.forM_eq_ok.mp widths _ inside
      simp only at checked
      split at checked
      · cases checked
      · exact not_not.mp ‹_›
    · rw [RecordBatch.rows, columns, numRows, rowsOf_written cells]
      refine List.map_congr_left fun row _ => ?_
      rw [List.map_map]
      rfl
  · cases made
  · cases made

/-- A built batch has the types of its schema. -/
theorem types_of_built {stmt : Statement} {schema : TableSchema} {batch : InsertBatch}
    (built : buildRecordBatch stmt schema = .ok batch) :
    batch.columns.map ArrayRef.type = schema.columns.map fun c => toArrow c.dataType := by
  obtain ⟨_, _, _, fields, _, _⟩ := buildRecordBatch_eq_ok built
  rw [batch.typed, fields, List.map_map]
  rfl

/-! ## Parts -/

section Parts

variable {lz4 : Lz4} {schema : TableSchema}

/-- A batch that was built and accepted is held by the part that is added. -/
theorem insert_of_built (distinct : schema.Distinct) (plain : schema.PlainNames)
    {stmt : Statement} {batch : InsertBatch} (built : buildRecordBatch stmt schema = .ok batch)
    {disk : Disk} {m : PartMetadata} {w : TableWriter}
    (accepted : (TableWriter.open schema disk).insert lz4 batch = (.ok m, w)) :
    m.rows = batch.numRows ∧
      w.disk.parts schema =
        ((disk.parts schema).filter fun part => part.1 ≠ partName m.partId) ++
          [(partName m.partId, w.disk.part schema (partName m.partId))] ∧
      PartHolds lz4 schema.columns (w.disk.part schema (partName m.partId))
        batch.toRecordBatch := by
  obtain ⟨_, _, _, fields, _, _⟩ := buildRecordBatch_eq_ok built
  obtain ⟨whole, parts⟩ := TableWriter.insert_eq_ok distinct plain accepted
  obtain ⟨made, sameSchema⟩ := TableWriter.insert_partId accepted
  have stored := whole.written distinct
  have sameLength : schema.columns.length = batch.columns.length := by
    rw [batch.columns_length, fields, List.length_map]
  rw [TableWriter.parts, TableWriter.part, sameSchema] at parts
  rw [TableWriter.part, sameSchema] at stored
  exact ⟨made ▸ rfl, parts, fields,
    List.forall₂_iff_zip.mpr ⟨sameLength, fun {c a} paired => stored.stored (c, a) paired⟩,
    batch.offsets⟩

/-- **INSERT stores rows by position**, if no column name has a slash. An accepted INSERT has rows
as wide as the schema and adds one part, which holds the values written in them: those at
position `i` in column `i` of the schema. Otherwise the parts stay as they were. -/
theorem runInsert_by_position (distinct : schema.Distinct) (plain : schema.PlainNames)
    (i : Insert) (disk : Disk) :
    (∀ m disk', runInsert lz4 (.insert i) schema disk = (.ok m, disk') →
      ∃ rows whole, extractRows (.insert i) = .ok rows ∧
        (∀ row ∈ rows, row.length = schema.columns.length) ∧ m.rows = rows.length ∧
        disk'.parts schema =
          ((disk.parts schema).filter fun part => part.1 ≠ partName m.partId) ++
            [(partName m.partId, disk'.part schema (partName m.partId))] ∧
        PartHolds lz4 schema.columns (disk'.part schema (partName m.partId)) whole ∧
        whole.rows.map (List.map some) = rows.map (writtenRow schema)) ∧
    ∀ result disk', runInsert lz4 (.insert i) schema disk = (result, disk') →
      (∀ m, result ≠ .ok m) → disk'.parts schema = disk.parts schema := by
  refine ⟨fun m disk' ran => ?_, fun result disk' ran failed => ?_⟩
  · unfold runInsert at ran
    split at ran
    · rename_i batch built
      obtain ⟨rows, extracted, widths, _, numRows, written⟩ := buildRecordBatch_eq_ok built
      simp only [Prod.mk.injEq, Outcome.mapErr_eq_ok] at ran
      obtain ⟨result, rfl⟩ := ran
      obtain ⟨count, parts, holds⟩ := insert_of_built distinct plain built (Prod.ext result rfl)
      exact ⟨rows, batch.toRecordBatch, extracted, widths, count.trans numRows, parts, holds,
        written⟩
    · cases ran
    · cases ran
  · unfold runInsert at ran
    split at ran
    · cases ran
      obtain ⟨touches, _⟩ := TableWriter.insert_failed plain rfl fun m accepted =>
        failed m (Outcome.mapErr_eq_ok.mpr accepted)
      exact touches.parts plain (not_listedName_tmpName _)
    · cases ran
      rfl
    · cases ran
      rfl

end Parts

/-- A table `t` with two columns of one type. -/
def pairSchema : TableSchema := ⟨"t", [⟨"a", .int .i64⟩, ⟨"b", .int .i64⟩]⟩

end TinyOlap.Dml
