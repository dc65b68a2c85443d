import TinyOlap.Dml.AllOrNothing
import TinyOlap.Storage.WriteErrors

/-!
# Inserting an integer

A cell of an INSERT that writes an integer in digits is accepted in every integer column that
has the integer, whatever stands in the other cells, and stores it. A negative integer is
written with a minus in front of the digits, which the parser makes an operator, and an INSERT
with an operator in a cell is refused: no signed column can be given a negative value.
-/

set_option autoImplicit false

namespace TinyOlap.Dml

open Library Catalog Arrow Storage Frontend Execution

/-! ## Written integers -/

/-- An integer as it is parsed: digits, and a minus around them if it is negative. -/
def writtenInt (n : Int) : Expr :=
  if n < 0 then .unaryOp "Minus" (.value (.number (toString n.natAbs)))
  else .value (.number (toString n.natAbs))

theorem writtenInt_of_nonneg {n : Int} (nonneg : 0 ≤ n) :
    writtenInt n = .value (.number (toString n.natAbs)) :=
  if_neg (not_lt.mpr nonneg)

theorem writtenInt_of_neg {n : Int} (negative : n < 0) :
    writtenInt n = .unaryOp "Minus" (.value (.number (toString n.natAbs))) :=
  if_pos negative

/-- The digits of an integer are read as the integer by every type that has it. -/
theorem parseInt_natAbs {signed : Bool} {top : Nat} (v : MachineInt signed top)
    (nonneg : 0 ≤ v.val) : Decimal.parseInt signed top (toString v.val.natAbs) = some v := by
  rw [Decimal.parseInt_toString, Int.natAbs_of_nonneg nonneg]
  exact MachineInt.ofInt?_eq_some.mpr rfl

theorem cellValue_writtenInt {t : IntType} {v : t.Native} (nonneg : 0 ≤ v.val) :
    cellValue (.int t) (writtenInt v.val) = some ⟨.data (.int t), v⟩ := by
  rw [writtenInt_of_nonneg nonneg, cellValue, literalOf, parseInt_natAbs v nonneg]
  rfl

theorem cellValue_writtenInt_of_neg {n : Int} (negative : n < 0) (t : DataType) :
    cellValue t (writtenInt n) = none := by
  rw [writtenInt_of_neg negative]
  rfl

/-! ## INSERTs with a written integer -/

/-- An INSERT whose cell in row `r` and column `k` is a written integer. All its rows are as wide
as the schema, its other cells are literals that their columns can hold, and there is not too
much text. -/
structure WritesInteger (schema : TableSchema) (i : Insert) (rows : List (List Expr)) (r k : Nat)
    (n : Int) : Prop where
  extracted : extractRows (.insert i) = .ok rows
  cell : rows[r]?.bind (fun row => row[k]?) = some (writtenInt n)
  widths : ∀ row ∈ rows, row.length = schema.columns.length
  others : ∀ r' row k' col, rows[r']? = some row → schema.columns[k']? = some col →
    (r', k') ≠ (r, k) → (row[k']?.bind (cellValue col.dataType)).isSome
  fits : TextFits schema rows

/-- What an INSERT of an integer should do: build a batch with the integer in its cell, and add a
part that holds the batch, unless the file system refuses the part. -/
def StoresInteger (schema : TableSchema) (k : Nat) {t : IntType} (v : t.Native) : Prop :=
  ∀ i rows r, WritesInteger schema i rows r k v.val →
    ∃ batch, buildRecordBatch (.insert i) schema = .ok batch ∧
      batch.rows[r]?.bind (fun row => row[k]?) = some ⟨.data (.int t), v⟩ ∧
      ∀ lz4 disk,
        (∃ m disk', runInsert lz4 (.insert i) schema disk = (.ok m, disk') ∧
          disk'.parts schema =
            ((disk.parts schema).filter fun part => part.1 ≠ partName m.partId) ++
              [(partName m.partId, disk'.part schema (partName m.partId))] ∧
          PartHolds lz4 schema.columns (disk'.part schema (partName m.partId))
            batch.toRecordBatch) ∨
        ∃ (e : IoError) (disk' : Disk), e.OfFileSystem ∧
          runInsert lz4 (.insert i) schema disk = (.err e.message, disk') ∧
          disk'.parts schema = disk.parts schema

section Column

variable {schema : TableSchema} {i : Insert} {rows : List (List Expr)} {r k : Nat}
  {c : ColumnSchema} {t : IntType} {v : t.Native}

/-- All rows are accepted if the written integer is no negative one. -/
theorem WritesInteger.insertable (writes : WritesInteger schema i rows r k v.val)
    (here : schema.columns[k]? = some c) (type : c.dataType = .int t) (nonneg : 0 ≤ v.val) :
    ∀ row ∈ rows, Insertable schema row := by
  intro row member
  obtain ⟨r', atRow⟩ := List.getElem?_of_mem member
  refine insertable_iff.mpr ⟨writes.widths row member, ?_⟩
  rintro ⟨col, k'⟩ column
  have atColumn := List.mk_mem_zipIdx_iff_getElem?.mp column
  by_cases place : (r', k') = (r, k)
  · cases place
    have cell := writes.cell
    rw [here] at atColumn
    cases atColumn
    rw [atRow, Option.bind_some] at cell
    rw [cell, Option.bind_some, type, cellValue_writtenInt nonneg]
    rfl
  · exact writes.others r' row k' col atRow atColumn place

/-- A batch with the rows of the INSERT has the integer in its cell. -/
theorem WritesInteger.cell_eq (writes : WritesInteger schema i rows r k v.val)
    (here : schema.columns[k]? = some c) (type : c.dataType = .int t) (nonneg : 0 ≤ v.val)
    {values : List (List Value)} (written : values.map (List.map some) =
      rows.map (writtenRow schema)) :
    values[r]?.bind (fun row => row[k]?) = some ⟨.data (.int t), v⟩ := by
  obtain ⟨row, atRow, cell⟩ := Option.bind_eq_some_iff.mp writes.cell
  have rowEq := congrArg (fun l => l[r]?) written
  simp only [List.getElem?_map, atRow, Option.map_some] at rowEq
  obtain ⟨valueRow, atValues, same⟩ := Option.map_eq_some_iff.mp rowEq
  have cellEq := congrArg (fun l => l[k]?) same
  simp only [writtenRow, List.getElem?_map, List.getElem?_zipIdx, here, Option.map_some,
    Nat.zero_add, cell, Option.bind_some, type, cellValue_writtenInt nonneg] at cellEq
  obtain ⟨value, atRow, found⟩ := Option.map_eq_some_iff.mp cellEq
  cases found
  rw [atValues, Option.bind_some, atRow]

/-- A batch that was built is stored unless the file system refuses it. -/
theorem runInsert_of_built (distinct : schema.Distinct) (plain : schema.PlainNames)
    {batch : InsertBatch} (built : buildRecordBatch (.insert i) schema = .ok batch) (lz4 : Lz4)
    (disk : Disk) :
    (∃ m disk', runInsert lz4 (.insert i) schema disk = (.ok m, disk') ∧
      disk'.parts schema =
        ((disk.parts schema).filter fun part => part.1 ≠ partName m.partId) ++
          [(partName m.partId, disk'.part schema (partName m.partId))] ∧
      PartHolds lz4 schema.columns (disk'.part schema (partName m.partId))
        batch.toRecordBatch) ∨
    ∃ (e : IoError) (disk' : Disk), e.OfFileSystem ∧
      runInsert lz4 (.insert i) schema disk = (.err e.message, disk') ∧
      disk'.parts schema = disk.parts schema := by
  have refused := insert_failsOnly lz4 (.open schema disk) (types_of_built built)
  have ran : runInsert lz4 (.insert i) schema disk =
      ((((TableWriter.open schema disk).insert lz4 batch).1).mapErr IoError.message,
        ((TableWriter.open schema disk).insert lz4 batch).2.disk) := by
    rw [runInsert, built]
  cases inserted : (TableWriter.open schema disk).insert lz4 batch with
  | mk result after =>
      rw [inserted] at refused ran
      cases result with
      | ok m =>
          exact .inl ⟨m, after.disk, ran, (insert_of_built distinct plain built inserted).2⟩
      | err e =>
          obtain ⟨touches, _⟩ := TableWriter.insert_failed plain inserted (by simp)
          exact .inr ⟨e, after.disk, refused, ran, touches.parts plain (not_listedName_tmpName _)⟩
      | panic => exact refused.elim

/-! ## A row for any schema -/

/-- A literal for a column of a type. -/
def zeroCell : DataType → Expr
  | .int _ | .f32 | .f64 => .value (.number "0")
  | .bool => .value (.boolean false)
  | .str => .value (.singleQuotedString "")

theorem cellValue_zeroCell (t : DataType) : (cellValue t (zeroCell t)).isSome := by
  rcases t with (t | _ | _ | _) | _
  · cases t <;> decide
  · decide
  · decide
  · rfl
  · rfl

theorem cellText_zeroCell (t : DataType) : cellText (zeroCell t) = 0 := by
  rcases t with (_ | _ | _ | _) | _ <;> rfl

theorem cellText_writtenInt (n : Int) : cellText (writtenInt n) = 0 := by
  rw [writtenInt]
  split <;> rfl

/-- A row with an integer in one column. -/
def integerRow (schema : TableSchema) (k : Nat) (n : Int) : List Expr :=
  (schema.columns.map fun c => zeroCell c.dataType).set k (writtenInt n)

/-- Every schema has an INSERT of an integer into a column. -/
theorem writesInteger_integerRow (here : schema.columns[k]? = some c) (n : Int) :
    WritesInteger schema (valuesInsert [integerRow schema k n]) [integerRow schema k n] 0 k n where
  extracted := rfl
  cell := by
    have inside := (List.getElem?_eq_some_iff.mp here).1
    simp [integerRow, inside]
  widths row member := by
    rw [List.mem_singleton.mp member, integerRow, List.length_set, List.length_map]
  others r' row k' col atRow atColumn differ := by
    cases r' with
    | succ r' => simp at atRow
    | zero =>
        cases atRow
        have other : k ≠ k' := fun same => differ (by rw [same])
        rw [integerRow, List.getElem?_set_ne other, List.getElem?_map, atColumn, Option.map_some,
          Option.bind_some]
        exact cellValue_zeroCell _
  fits := by
    have noText : ∀ cell ∈ integerRow schema k n, cellText cell = 0 := by
      intro cell member
      rcases List.mem_or_eq_of_mem_set member with other | rfl
      · obtain ⟨col, _, rfl⟩ := List.mem_map.mp other
        exact cellText_zeroCell _
      · exact cellText_writtenInt n
    rintro ⟨col, k'⟩ _ _
    have zero : columnText [integerRow schema k n] k' = 0 := by
      simp only [columnText, List.map_cons, List.map_nil, List.sum_cons, List.sum_nil, Nat.add_zero]
      cases found : (integerRow schema k n)[k']? with
      | none => rfl
      | some cell => exact noText cell (List.mem_of_getElem? found)
    rw [zero]
    exact Nat.two_pow_pos 31

/-- **Which integers an INSERT stores**, if no column name has a slash: those that are not
negative. -/
theorem storesInteger_iff (distinct : schema.Distinct) (plain : schema.PlainNames)
    (here : schema.columns[k]? = some c) (type : c.dataType = .int t) :
    StoresInteger schema k v ↔ 0 ≤ v.val := by
  constructor
  · intro stores
    by_contra negative
    rw [not_le] at negative
    have writes := writesInteger_integerRow here v.val
    obtain ⟨batch, built, _⟩ := stores _ _ 0 writes
    obtain ⟨_, each, _⟩ := (buildRecordBatch_isOk_iff writes.extracted).mp ⟨batch, built⟩
    obtain ⟨row, atRow, cell⟩ := Option.bind_eq_some_iff.mp writes.cell
    have column := List.mk_mem_zipIdx_iff_getElem?.mpr here
    have accepted := (insertable_iff.mp (each row (List.mem_of_getElem? atRow))).2 _ column
    rw [cell, Option.bind_some, cellValue_writtenInt_of_neg negative] at accepted
    cases accepted
  · intro nonneg i rows r writes
    have column : schema.columns ≠ [] := List.ne_nil_of_mem (List.mem_of_getElem? here)
    obtain ⟨batch, built⟩ := (buildRecordBatch_isOk_iff writes.extracted).mpr
      ⟨column, writes.insertable here type nonneg, writes.fits⟩
    obtain ⟨rows', extracted, _, _, _, written⟩ := buildRecordBatch_eq_ok built
    cases Outcome.ok.inj (writes.extracted.symm.trans extracted)
    exact ⟨batch, built, writes.cell_eq here type nonneg written,
      runInsert_of_built distinct plain built⟩

end Column

end TinyOlap.Dml
