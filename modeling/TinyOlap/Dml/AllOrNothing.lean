import Mathlib.Data.String.Basic
import TinyOlap.Dml.InsertResult

/-!
# An INSERT is accepted as a whole or not at all

A batch is built from the rows of a VALUES clause exactly when every row has one cell for each
column of the schema and every cell is a literal that its column can hold. One other cell, in
any row, refuses the whole statement, before any file is touched. Two limits come from the
arrays themselves: a batch without columns is refused, and the texts of a string array have
32-bit offsets, so that too much text is a panic.
-/

set_option autoImplicit false

namespace TinyOlap.Dml

open Library Catalog Arrow Storage Frontend

/-! ## One column -/

/-- The bytes of text of a cell. -/
def cellText : Expr → Nat
  | .value (.singleQuotedString s) => s.utf8ByteSize
  | _ => 0

/-- The bytes of text in the cells of a column. -/
def columnText (rows : List (List Expr)) (colIdx : Nat) : Nat :=
  (rows.map fun row => (row[colIdx]?.map cellText).getD 0).sum

section Columns

variable {rows : List (List Expr)} {colIdx : Nat} {colName : String}

/-- A parser of columns reads the literals of a type: it returns the value of each row's cell,
returns at all exactly if every row has a value there, and panics only if a row is too
short. -/
structure ReadsColumn (t : DataType) (rows : List (List Expr)) (colIdx : Nat)
    (parsed : TextResult (List t.Native)) : Prop where
  values : ∀ values, parsed = .ok values →
    values.map some = rows.map fun row => row[colIdx]?.bind fun
      | .value v => literalOf t v
      | _ => none
  isOk_iff : (∃ values, parsed = .ok values) ↔
    ∀ row ∈ rows, (row[colIdx]?.bind (cellValue t)).isSome
  panic : parsed = .panic → ∃ row ∈ rows, row[colIdx]? = none

theorem isSome_bind_cellValue {t : DataType} {cell : Option Expr} :
    (cell.bind (cellValue t)).isSome ↔ ∃ v, cell = some (.value v) ∧ (literalOf t v).isSome := by
  match cell with
  | none => simp
  | some (.value v) => simp [cellValue]
  | some (.identifier _) | some (.compoundIdentifier _) | some (.binaryOp ..) => simp [cellValue]
  | some (.unaryOp ..) | some (.function ..) | some .subquery | some (.other ..) =>
      simp [cellValue]

theorem readsColumn_of_parseColumn {t : DataType} {expected : String}
    {parse : SqlValue → Parsed t.Native}
    (means : ∀ v, literalOf t v = (parse v).value) :
    ReadsColumn t rows colIdx (parseColumn expected parse rows colIdx colName) where
  values _ := parseColumn_eq_ok means
  isOk_iff := by
    constructor
    · rintro ⟨values, parsed⟩ row member
      have same := parseColumn_eq_ok means parsed
      have here : (row[colIdx]?.bind fun
          | .value v => literalOf t v
          | _ => none) ∈ values.map some := by
        rw [same]
        exact List.mem_map_of_mem member
      obtain ⟨a, _, found⟩ := List.mem_map.mp here
      obtain ⟨cell, inside, read⟩ := Option.bind_eq_some_iff.mp found.symm
      refine isSome_bind_cellValue.mpr ?_
      cases cell with
      | value v => exact ⟨v, inside, Option.isSome_iff_exists.mpr ⟨a, read⟩⟩
      | _ => cases read
    · intro defined
      refine Outcome.mapM_isOk_iff.mpr ?_
      rintro ⟨row, rowIdx⟩ member
      obtain ⟨v, cell, read⟩ := isSome_bind_cellValue.mp
        (defined row (List.fst_mem_of_mem_zipIdx member))
      rw [means] at read
      simp only [cell]
      cases parsed : parse v with
      | ok a => exact ⟨a, rfl⟩
      | malformed text reason => simp [parsed, Parsed.value] at read
      | mismatch => simp [parsed, Parsed.value] at read
  panic panicked := by
    obtain ⟨⟨row, rowIdx⟩, member, here⟩ := Outcome.exists_panic_of_mapM panicked
    refine ⟨row, List.fst_mem_of_mem_zipIdx member, ?_⟩
    simp only at here
    split at here
    · assumption
    · split at here <;> cases here
    · cases here

theorem readsColumn_of_parseNumeric {t : DataType} {fromStr : String → Option t.Native}
    {error : String → String}
    (means : ∀ v, literalOf t v = match v with
      | .number s => fromStr s
      | _ => none) :
    ReadsColumn t rows colIdx (parseNumeric fromStr error rows colIdx colName) := by
  obtain ⟨parse, same, gives⟩ := exists_parse_number error means
  exact same rows colIdx colName ▸ readsColumn_of_parseColumn gives

/-- The text of an array is that of the cells. -/
theorem textBytes_of_values {values : List String}
    (same : values.map some = rows.map fun row => row[colIdx]?.bind fun
      | .value v => literalOf .str v
      | _ => none) :
    (ArrayRef.mk (.data .str) values).textBytes = columnText rows colIdx := by
  have sizes : values.map String.utf8ByteSize =
      rows.map fun row => (row[colIdx]?.map cellText).getD 0 := by
    calc values.map String.utf8ByteSize
        = (values.map some).map fun text => (text.map String.utf8ByteSize).getD 0 := by
          rw [List.map_map]
          rfl
      _ = rows.map fun row => (row[colIdx]?.map cellText).getD 0 := by
          rw [same, List.map_map]
          refine List.map_congr_left fun row _ => ?_
          rw [Function.comp_apply]
          match row[colIdx]? with
          | none => rfl
          | some (.value (.singleQuotedString s)) => rfl
          | some (.value (.number s)) => rfl
          | some (.value (.boolean b)) | some (.value .null) | some (.value (.other _)) => rfl
          | some (.identifier _) | some (.compoundIdentifier _) | some (.binaryOp ..) => rfl
          | some (.unaryOp ..) | some (.function ..) | some .subquery | some (.other ..) => rfl
  rw [ArrayRef.textBytes, ArrayRef.downcast_mk, columnText, ← sizes]

theorem textBytes_of_ne_str {t : DataType} (other : t ≠ .str) (values : List t.Native) :
    (ArrayRef.mk (.data t) values).textBytes = 0 := by
  have differ : ¬ ArrowType.data t = .data .str := fun same => other (ArrowType.data.inj same)
  rw [ArrayRef.textBytes, ArrayRef.downcast, dif_neg differ]

/-- A parsed column becomes an array, unless it has too much text. -/
theorem arrayFrom_of_reads {t : DataType} {parsed : TextResult (List t.Native)}
    (reads : ReadsColumn t rows colIdx parsed) :
    ((∃ array, (parsed >>= arrayFrom (.data t)) = .ok array) ↔
      (∀ row ∈ rows, (row[colIdx]?.bind (cellValue t)).isSome) ∧
        (t = .str → columnText rows colIdx < 2 ^ 31)) ∧
    ((∀ row ∈ rows, row[colIdx]? ≠ none) →
      ((parsed >>= arrayFrom (.data t)) = .panic ↔
        (∀ row ∈ rows, (row[colIdx]?.bind (cellValue t)).isSome) ∧
          t = .str ∧ 2 ^ 31 ≤ columnText rows colIdx)) := by
  have room : ∀ values, parsed = .ok values →
      ((ArrayRef.mk (.data t) values).textBytes < 2 ^ 31 ↔
        (t = .str → columnText rows colIdx < 2 ^ 31)) := by
    intro values parsed
    by_cases text : t = .str
    · subst text
      rw [textBytes_of_values (reads.values values parsed)]
      simp
    · rw [textBytes_of_ne_str text]
      simp [text]
  rw [← reads.isOk_iff]
  cases result : parsed with
  | err e => simp
  | panic =>
      obtain ⟨row, member, missing⟩ := reads.panic result
      exact ⟨by simp, fun wide => (wide row member missing).elim⟩
  | ok values =>
      have bound := room values result
      rw [Outcome.ok_bind, arrayFrom]
      split
      · rename_i fits
        refine ⟨⟨fun _ => ⟨⟨values, rfl⟩, bound.mp fits⟩, fun _ => ⟨_, rfl⟩⟩, fun _ => ?_⟩
        exact ⟨nofun, fun ⟨_, text, tooMuch⟩ => absurd (bound.mp fits text)
          (Nat.not_lt.mpr tooMuch)⟩
      · rename_i tooMuch
        rw [bound] at tooMuch
        refine ⟨⟨nofun, fun both => (tooMuch both.2).elim⟩, fun _ => ⟨fun _ => ?_, fun _ => rfl⟩⟩
        have text : t = .str := Decidable.not_not.mp fun other =>
          tooMuch fun same => (other same).elim
        exact ⟨⟨values, rfl⟩, text, Nat.le_of_not_lt fun fits => tooMuch fun _ => fits⟩

/-- **A column is built exactly if every row has a value for it** and there is not too much
text. If all rows are wide enough, it is too much text that panics. -/
theorem buildColumnArray_isOk_iff (col : ColumnSchema) :
    ((∃ array, buildColumnArray col colIdx rows = .ok array) ↔
      (∀ row ∈ rows, (row[colIdx]?.bind (cellValue col.dataType)).isSome) ∧
        (col.dataType = .str → columnText rows colIdx < 2 ^ 31)) ∧
    ((∀ row ∈ rows, row[colIdx]? ≠ none) →
      (buildColumnArray col colIdx rows = .panic ↔
        (∀ row ∈ rows, (row[colIdx]?.bind (cellValue col.dataType)).isSome) ∧
          col.dataType = .str ∧ 2 ^ 31 ≤ columnText rows colIdx)) := by
  obtain ⟨name, dataType⟩ := col
  match dataType with
  | .int t =>
      exact arrayFrom_of_reads
        (readsColumn_of_parseNumeric (t := .int t) (by rintro ⟨⟩ <;> rfl))
  | .f32 =>
      exact arrayFrom_of_reads
        (readsColumn_of_parseNumeric (t := .f32) (by rintro ⟨⟩ <;> rfl))
  | .f64 =>
      exact arrayFrom_of_reads
        (readsColumn_of_parseNumeric (t := .f64) (by rintro ⟨⟩ <;> rfl))
  | .bool => exact arrayFrom_of_reads (readsColumn_of_parseColumn (t := .bool)
      (by rintro ⟨⟩ <;> rfl))
  | .str => exact arrayFrom_of_reads (readsColumn_of_parseColumn (t := .str) (by rintro ⟨⟩ <;> rfl))

end Columns

/-! ## All columns -/

theorem checkWidths_eq_ok {schema : TableSchema} {rows : List (List Expr)} :
    checkWidths schema rows = .ok () ↔ ∀ row ∈ rows, row.length = schema.columns.length := by
  rw [checkWidths, Outcome.forM_eq_ok]
  constructor
  · intro checked row member
    rw [← List.zipIdx_map_fst 0 rows] at member
    obtain ⟨⟨_, i⟩, inside, rfl⟩ := List.mem_map.mp member
    have here := checked _ inside
    simp only at here
    split at here
    · cases here
    · exact not_not.mp ‹_›
  · rintro widths ⟨row, i⟩ member
    exact if_neg (not_not.mpr (widths row (List.fst_mem_of_mem_zipIdx member)))

theorem checkWidths_ne_panic (schema : TableSchema) (rows : List (List Expr)) :
    checkWidths schema rows ≠ .panic := by
  intro panicked
  obtain ⟨⟨row, i⟩, _, here⟩ := Outcome.exists_panic_of_forM panicked
  simp only at here
  split at here <;> cases here

/-- A row has one cell for each column, and each cell is a literal that its column can hold. -/
def Insertable (schema : TableSchema) (row : List Expr) : Prop :=
  List.Forall₂ (fun (c : ColumnSchema) cell => (cellValue c.dataType cell).isSome)
    schema.columns row

theorem insertable_iff {schema : TableSchema} {row : List Expr} :
    Insertable schema row ↔ row.length = schema.columns.length ∧
      ∀ entry ∈ schema.columns.zipIdx,
        (row[entry.2]?.bind (cellValue entry.1.dataType)).isSome := by
  rw [Insertable, List.forall₂_iff_get]
  constructor
  · rintro ⟨same, each⟩
    refine ⟨same.symm, ?_⟩
    rintro ⟨c, idx⟩ member
    obtain ⟨inside, here⟩ := List.getElem?_eq_some_iff.mp
      (List.mk_mem_zipIdx_iff_getElem?.mp member)
    have cell := each idx inside (same ▸ inside)
    rw [List.get_eq_getElem, List.get_eq_getElem, here] at cell
    rw [List.getElem?_eq_getElem (same ▸ inside)]
    exact cell
  · rintro ⟨same, each⟩
    refine ⟨same.symm, fun idx inside inRow => ?_⟩
    have cell := each (schema.columns[idx], idx)
      (List.mk_mem_zipIdx_iff_getElem?.mpr (List.getElem?_eq_getElem inside))
    rwa [List.getElem?_eq_getElem inRow] at cell

/-- No column of strings has more text than 32-bit offsets reach. -/
def TextFits (schema : TableSchema) (rows : List (List Expr)) : Prop :=
  ∀ entry ∈ schema.columns.zipIdx, entry.1.dataType = .str → columnText rows entry.2 < 2 ^ 31

/-- Arrays that were built for the columns of a schema make a batch, if there is a column. -/
theorem makeBatch_isOk_iff {schema : TableSchema} {rows : List (List Expr)}
    {arrays : List ColumnArray}
    (built : List.Forall₂ (fun entry array => buildColumnArray entry.1 entry.2 rows = .ok array)
      schema.columns.zipIdx arrays) :
    ((∃ batch, makeBatch (schema.columns.map Field.ofColumn) arrays = .ok batch) ↔
      schema.columns ≠ []) ∧
    makeBatch (schema.columns.map Field.ofColumn) arrays ≠ .panic := by
  rcases Decidable.em (schema.columns = []) with none | some_column
  · rw [none] at built
    cases built
    rw [none]
    exact ⟨⟨nofun, fun absurd => (absurd rfl).elim⟩, nofun⟩
  · have each := built.imp fun entry array built => buildColumnArray_eq_ok built
    have typed : (arrays.map Subtype.val).map ArrayRef.type =
        (schema.columns.map Field.ofColumn).map Field.dataType := by
      rw [← List.zipIdx_map_fst 0 schema.columns, List.map_map, List.map_map, List.map_map]
      clear built
      generalize schema.columns.zipIdx = entries at each
      induction each with
      | nil => rfl
      | cons first _ ih => exact congrArg₂ List.cons first.1 ih
    have lengths : ∀ a ∈ arrays.map Subtype.val, a.length = rows.length := by
      intro a member
      obtain ⟨array, inside, rfl⟩ := List.mem_map.mp member
      obtain ⟨entry, _, here⟩ := exists_of_mem_right each inside
      have length := congrArg List.length here.2
      rwa [List.length_map, List.length_map, ArrayRef.cells_length] at length
    have nonempty : arrays.map Subtype.val ≠ [] := by
      intro empty
      have count := each.length_eq
      rw [List.map_eq_nil_iff.mp empty, List.length_zipIdx] at count
      exact some_column (List.length_eq_zero_iff.mp count)
    have tried := RecordBatch.tryNew_eq_ok nonempty typed lengths
    have made : ∃ batch, makeBatch (schema.columns.map Field.ofColumn) arrays = .ok batch := by
      unfold makeBatch
      split
      · exact ⟨_, rfl⟩
      · rename_i other
        rw [tried] at other
        cases other
      · rename_i other
        rw [tried] at other
        cases other
    refine ⟨⟨fun _ => some_column, fun _ => made⟩, fun panicked => ?_⟩
    obtain ⟨batch, made⟩ := made
    rw [made] at panicked
    cases panicked

/-- The column of rows as wide as the schema. -/
theorem wide_of_width {schema : TableSchema} {rows : List (List Expr)}
    (widths : ∀ row ∈ rows, row.length = schema.columns.length) {entry : ColumnSchema × Nat}
    (member : entry ∈ schema.columns.zipIdx) : ∀ row ∈ rows, row[entry.2]? ≠ none := by
  intro row inside missing
  have column := (List.getElem?_eq_some_iff.mp (List.mk_mem_zipIdx_iff_getElem?.mp member)).1
  rw [List.getElem?_eq_none_iff, widths row inside] at missing
  omega

/-- A column that can be built. -/
def Builds (rows : List (List Expr)) (entry : ColumnSchema × Nat) : Prop :=
  (∀ row ∈ rows, (row[entry.2]?.bind (cellValue entry.1.dataType)).isSome) ∧
    (entry.1.dataType = .str → columnText rows entry.2 < 2 ^ 31)

/-- The first column that cannot be built has a text in every row, and too much text. -/
def TooMuchText (schema : TableSchema) (rows : List (List Expr)) : Prop :=
  (∀ row ∈ rows, row.length = schema.columns.length) ∧
    ∃ before entry after, schema.columns.zipIdx = before ++ entry :: after ∧
      (∀ other ∈ before, Builds rows other) ∧
      (∀ row ∈ rows, (row[entry.2]?.bind (cellValue entry.1.dataType)).isSome) ∧
      entry.1.dataType = .str ∧ 2 ^ 31 ≤ columnText rows entry.2

/-- **When the rows of an INSERT make the program panic.** -/
theorem buildRecordBatch_eq_panic {schema : TableSchema} {i : Insert} {rows : List (List Expr)}
    (extracted : extractRows (.insert i) = .ok rows) :
    buildRecordBatch (.insert i) schema = .panic ↔ TooMuchText schema rows := by
  have column := fun (entry : ColumnSchema × Nat) =>
    @buildColumnArray_isOk_iff rows entry.2 entry.1
  have arrays : (∀ row ∈ rows, row.length = schema.columns.length) →
      (schema.columns.zipIdx.mapM (fun entry => buildColumnArray entry.1 entry.2 rows) = .panic ↔
        TooMuchText schema rows) := by
    intro widths
    rw [Outcome.mapM_eq_panic, TooMuchText, and_iff_right widths]
    refine exists_congr fun before => exists_congr fun entry => exists_congr fun after =>
      and_congr_right fun split => ?_
    have member : entry ∈ schema.columns.zipIdx := split ▸ by simp
    exact and_congr (forall₂_congr fun other _ => (column other).1)
      ((column entry).2 (wide_of_width widths member))
  rw [buildRecordBatch, extracted, Outcome.ok_bind]
  cases checked : checkWidths schema rows with
  | panic => exact (checkWidths_ne_panic schema rows checked).elim
  | err e =>
      constructor
      · intro panicked
        cases panicked
      · intro tooMuch
        rw [checkWidths_eq_ok.mpr tooMuch.1] at checked
        cases checked
  | ok _ =>
      rw [Outcome.ok_bind, ← arrays (checkWidths_eq_ok.mp checked)]
      cases built : schema.columns.zipIdx.mapM
          (fun entry => buildColumnArray entry.1 entry.2 rows) with
      | panic => simp
      | err e => simp
      | ok arrays =>
          have returns := (makeBatch_isOk_iff (Outcome.mapM_eq_ok built)).2
          simp [returns]

/-- **When a batch is built** from the rows of an INSERT. -/
theorem buildRecordBatch_isOk_iff {schema : TableSchema} {i : Insert} {rows : List (List Expr)}
    (extracted : extractRows (.insert i) = .ok rows) :
    (∃ batch, buildRecordBatch (.insert i) schema = .ok batch) ↔
      schema.columns ≠ [] ∧ (∀ row ∈ rows, Insertable schema row) ∧ TextFits schema rows := by
  constructor
  · rintro ⟨batch, built⟩
    obtain ⟨rows', extracted', built⟩ := Outcome.bind_eq_ok.mp built
    cases Outcome.ok.inj (extracted.symm.trans extracted')
    obtain ⟨_, widths, built⟩ := Outcome.bind_eq_ok.mp built
    obtain ⟨arrays, arraysBuilt, made⟩ := Outcome.bind_eq_ok.mp built
    have each := Outcome.mapM_isOk_iff.mp ⟨arrays, arraysBuilt⟩
    have columns := fun entry member =>
      (@buildColumnArray_isOk_iff rows entry.2 entry.1).1.mp (each entry member)
    refine ⟨(makeBatch_isOk_iff (Outcome.mapM_eq_ok arraysBuilt)).1.mp ⟨batch, made⟩,
      fun row member => insertable_iff.mpr ⟨checkWidths_eq_ok.mp widths row member, ?_⟩, ?_⟩
    · exact fun entry inside => (columns entry inside).1 row member
    · exact fun entry inside => (columns entry inside).2
  · rintro ⟨some_column, each, fits⟩
    have widths := checkWidths_eq_ok.mpr fun row member => (insertable_iff.mp (each row member)).1
    obtain ⟨arrays, arraysBuilt⟩ := Outcome.mapM_isOk_iff.mpr
      fun entry (member : entry ∈ schema.columns.zipIdx) =>
        (buildColumnArray_isOk_iff entry.1).1.mpr
          ⟨fun row inside => (insertable_iff.mp (each row inside)).2 entry member,
            fits entry member⟩
    obtain ⟨batch, made⟩ :=
      (makeBatch_isOk_iff (Outcome.mapM_eq_ok arraysBuilt)).1.mpr some_column
    refine ⟨batch, ?_⟩
    rw [buildRecordBatch, extracted, Outcome.ok_bind, widths, Outcome.ok_bind, arraysBuilt,
      Outcome.ok_bind, made]

/-- **An INSERT is accepted as a whole or not at all.** A batch is built exactly if the schema
has a column, every row has one cell for each column and each a literal that its column can
hold, and no column of strings has too much text. It has the rows of the statement, each cell
with the value of its literal. Nothing panics unless there is too much text. Without a batch the
file system stays as it was, and an error is returned as it is. -/
theorem buildRecordBatch_all_or_nothing {schema : TableSchema} {i : Insert}
    {rows : List (List Expr)} (extracted : extractRows (.insert i) = .ok rows) :
    ((∃ batch, buildRecordBatch (.insert i) schema = .ok batch) ↔
      schema.columns ≠ [] ∧ (∀ row ∈ rows, Insertable schema row) ∧ TextFits schema rows) ∧
    (∀ batch, buildRecordBatch (.insert i) schema = .ok batch →
      batch.fields = schema.columns.map Field.ofColumn ∧ batch.numRows = rows.length ∧
        batch.rows.map (List.map some) = rows.map (writtenRow schema)) ∧
    (buildRecordBatch (.insert i) schema = .panic → ¬ TextFits schema rows) ∧
    ∀ lz4 disk, (∀ batch, buildRecordBatch (.insert i) schema ≠ .ok batch) →
      (runInsert lz4 (.insert i) schema disk).2 = disk ∧
        ∀ e, buildRecordBatch (.insert i) schema = .err e →
          (runInsert lz4 (.insert i) schema disk).1 = .err e := by
  refine ⟨buildRecordBatch_isOk_iff extracted, ?_, ?_, ?_⟩
  · intro batch built
    obtain ⟨rows', extracted', _, fields, count, written⟩ := buildRecordBatch_eq_ok built
    cases Outcome.ok.inj (extracted.symm.trans extracted')
    exact ⟨fields, count, written⟩
  · intro panicked fits
    obtain ⟨_, before, entry, after, split, _, _, text, tooMuch⟩ :=
      (buildRecordBatch_eq_panic extracted).mp panicked
    exact absurd (fits entry (split ▸ by simp) text) (Nat.not_lt.mpr tooMuch)
  · intro lz4 disk refused
    rw [runInsert]
    cases built : buildRecordBatch (.insert i) schema with
    | ok batch => exact (refused batch built).elim
    | err e => exact ⟨rfl, fun e' same => by cases same; rfl⟩
    | panic => exact ⟨rfl, nofun⟩

/-! ## The two limits -/

/-- `INSERT INTO t VALUES ...`. -/
def valuesInsert (rows : List (List Expr)) : Insert where
  table := "t"
  columns := []
  source := some
    { «with» := false
      body := .values rows
      orderBy := []
      limitClause := none
      fetch := false }

/-- A table with one column of strings. -/
def textSchema : TableSchema := ⟨"t", [⟨"s", .str⟩]⟩

/-- A row with a text of so many bytes. -/
def textRow (n : Nat) : List Expr :=
  [.value (.singleQuotedString (String.ofList (List.replicate n 'a')))]

theorem utf8ByteSize_replicate (n : Nat) :
    (String.ofList (List.replicate n 'a')).utf8ByteSize = n := by
  rw [String.utf8ByteSize_ofList]
  induction n with
  | zero => rfl
  | succ n ih =>
      rw [List.replicate_succ, String.utf8Len, ih]
      rfl

theorem buildRecordBatch_textRow {n : Nat} (long : 2 ^ 31 ≤ n) :
    buildRecordBatch (.insert (valuesInsert [textRow n])) textSchema = .panic := by
  have tooMuch : ¬ (ArrayRef.mk (.data .str)
      [String.ofList (List.replicate n 'a')]).textBytes < 2 ^ 31 := by
    rw [ArrayRef.textBytes, ArrayRef.downcast_mk]
    simp only [List.map_cons, List.map_nil, List.sum_cons, List.sum_nil, utf8ByteSize_replicate]
    omega
  have column : buildColumnArray ⟨"s", .str⟩ 0 [textRow n] = .panic := by
    show arrayFrom (.data .str) [String.ofList (List.replicate n 'a')] = .panic
    rw [arrayFrom, dif_neg tooMuch]
  have widths : checkWidths textSchema [textRow n] = .ok () := rfl
  have columns : textSchema.columns.zipIdx = [(⟨"s", .str⟩, 0)] := rfl
  have extracted : extractRows (.insert (valuesInsert [textRow n])) = .ok [textRow n] := rfl
  rw [buildRecordBatch, extracted, Outcome.ok_bind, widths, Outcome.ok_bind, columns,
    List.mapM_cons]
  simp only [column, Outcome.panic_bind]

/-- Rows that are as wide as the schema, with a literal of the right kind in every cell, are
refused if the schema has no column, and make the program panic if the text of a column has
2 GiB. -/
theorem insertable_rows_refused :
    ((∀ row ∈ [[]], Insertable ⟨"t", []⟩ row) ∧
      ∃ e, buildRecordBatch (.insert (valuesInsert [[]])) ⟨"t", []⟩ = .err e) ∧
    (∀ row ∈ [textRow (2 ^ 31)], Insertable textSchema row) ∧
      buildRecordBatch (.insert (valuesInsert [textRow (2 ^ 31)])) textSchema = .panic := by
  refine ⟨⟨fun row member => ?_, _, rfl⟩, fun row member => ?_, buildRecordBatch_textRow le_rfl⟩
  · rw [List.mem_singleton.mp member]
    exact .nil
  · rw [List.mem_singleton.mp member]
    exact .cons rfl .nil

/-- Two rows of two numbers. -/
def twoRows : List (List Expr) :=
  [[.value (.number "1"), .value (.number "2")], [.value (.number "3"), .value (.number "4")]]

/-- They are accepted, and make a batch of two rows. -/
theorem buildRecordBatch_all_or_nothing_two :
    ∃ batch, buildRecordBatch (.insert (valuesInsert twoRows)) pairSchema = .ok batch ∧
      batch.numRows = 2 := by
  obtain ⟨accepts, holds, _⟩ :=
    @buildRecordBatch_all_or_nothing pairSchema (valuesInsert twoRows) _ rfl
  have each : ∀ row ∈ twoRows, Insertable pairSchema row := by
    intro row member
    simp only [twoRows, List.mem_cons, List.not_mem_nil, or_false] at member
    rcases member with rfl | rfl
    · exact .cons rfl (.cons rfl .nil)
    · exact .cons rfl (.cons rfl .nil)
  obtain ⟨batch, built⟩ := accepts.mpr ⟨by decide, each, by unfold TextFits; decide⟩
  exact ⟨batch, built, (holds batch built).2.1⟩

end TinyOlap.Dml
