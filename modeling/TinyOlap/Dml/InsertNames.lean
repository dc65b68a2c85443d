import TinyOlap.Dml.AllOrNothing
import TinyOlap.Storage.WriteErrors

/-!
# What the text of an INSERT says

An INSERT names a table, and it may list the columns in an order of its own. Its text then says
that the value at a place in the list goes to the column that is named there. Neither the name nor
the list is looked at, so an accepted INSERT has done what its text says exactly if the text says
the same as the positions do. An INSERT that is not accepted leaves the parts alone, and is
refused with an error unless a text is too long for an array.
-/

set_option autoImplicit false

namespace TinyOlap.Dml

open Library Catalog Arrow Storage Frontend Execution

/-- The values that the text of an INSERT gives the columns of the schema: those at the place of
the column in the column list, or in the schema if there is no list. -/
def namedRow (schema : TableSchema) (columns : List String) (row : List Expr) :
    List (Option Value) :=
  if columns = [] then writtenRow schema row
  else schema.columns.map fun c => row[columns.idxOf c.name]?.bind (cellValue c.dataType)

/-- The rows that a scan of all columns reads from a part. -/
def storedRows (lz4 : Lz4) (schema : TableSchema) (partDir : PartDir) : List (List Value) :=
  (partBatches lz4 schema.columns partDir).flatMap RecordBatch.rows

/-- The INSERT is one into the table, and its column list, if it has one, has the columns of the
schema in some order. -/
def NamesTable (schema : TableSchema) (i : Insert) : Prop :=
  i.table = schema.name ∧
    (i.columns = [] ∨ i.columns.Perm (schema.columns.map ColumnSchema.name))

/-- What an accepted INSERT should have done: it was one into the table, and it has added a part
with the rows that its text says. -/
def DoneAsWritten (lz4 : Lz4) (schema : TableSchema) (i : Insert) (disk disk' : Disk)
    (m : PartMetadata) : Prop :=
  NamesTable schema i ∧ ∃ rows, extractRows (.insert i) = .ok rows ∧
    disk'.parts schema = ((disk.parts schema).filter fun part => part.1 ≠ partName m.partId) ++
      [(partName m.partId, disk'.part schema (partName m.partId))] ∧
    (storedRows lz4 schema (disk'.part schema (partName m.partId))).map (List.map some) =
      rows.map (namedRow schema i.columns)

/-- The text of an INSERT says what its positions say: it is one into the table, and in every row
the value at the place of a column in the list is that at the place of the column in the
schema. -/
def SaysPositions (schema : TableSchema) (i : Insert) : Prop :=
  NamesTable schema i ∧ ∀ rows, extractRows (.insert i) = .ok rows →
    ∀ row ∈ rows, namedRow schema i.columns row = writtenRow schema row

section Insert

variable {lz4 : Lz4} {schema : TableSchema} {i : Insert}

theorem storedRows_of_holds {partDir : PartDir} {whole : RecordBatch}
    (columns : schema.columns ≠ []) (holds : PartHolds lz4 schema.columns partDir whole) :
    storedRows lz4 schema partDir = whole.rows := by
  have pos : 0 < granuleSize := granuleSize_pos
  have all := BlockLayout.flatMap_granules pos whole.rows
  rw [RecordBatch.rows_length] at all
  rw [storedRows, (partBatches_eq columns holds).2, granules, List.flatMap_map]
  simpa only [RecordBatch.rows_slice] using all

theorem extractRows_ne_panic (i : Insert) : extractRows (.insert i) ≠ .panic := by
  unfold extractRows
  simp only
  split
  · simp
  · split <;> simp

/-- What panics is the building of the batch. -/
theorem runInsert_eq_panic {disk disk' : Disk} (ran :
    runInsert lz4 (.insert i) schema disk = (.panic, disk')) :
    buildRecordBatch (.insert i) schema = .panic := by
  unfold runInsert at ran
  split at ran
  · rename_i batch built
    have refused := insert_failsOnly lz4 (.open schema disk) (types_of_built built)
    have panicked := congrArg Prod.fst ran
    simp only at panicked
    cases result : ((TableWriter.open schema disk).insert lz4 batch).1 with
    | ok m =>
        rw [result] at panicked
        cases panicked
    | err e =>
        rw [result] at panicked
        cases panicked
    | panic =>
        rw [result] at refused
        exact refused.elim
  · cases ran
  · assumption

end Insert

/-! ## Two INSERTs -/

/-- An INSERT of the row `(1, 2)`, under a list of columns. -/
def pairInsert (table : String) (columns : List String) : Insert where
  table := table
  columns := columns
  source := some
    { «with» := false
      body := .values [[.value (.number "1"), .value (.number "2")]]
      orderBy := []
      limitClause := none
      fetch := false }

end TinyOlap.Dml
