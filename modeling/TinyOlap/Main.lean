import TinyOlap.Dml.InsertBuilder
import TinyOlap.Execution.Builder
import TinyOlap.Frontend.Analyzer
import TinyOlap.Logical.Lower
import TinyOlap.Logical.Optimizer
import TinyOlap.Physical.Lower
import TinyOlap.Physical.Optimizer

/-!
# Statements from end to end

A statement is validated and analyzed, and then either inserted or planned. An INSERT skips
planning; a SELECT goes through both planners and both optimizers before it is built.
-/

set_option autoImplicit false

namespace TinyOlap

open Library Catalog Arrow Storage Frontend Execution

/-- `run_insert`, with the file system it leaves behind. -/
def runInsert (lz4 : Lz4) (stmt : Statement) (schema : TableSchema) (disk : Disk) :
    TextResult PartMetadata × Disk :=
  match Dml.buildRecordBatch stmt schema with
  | .ok batch =>
      let (result, writer) := (TableWriter.open schema disk).insert lz4 batch
      (result.mapErr IoError.message, writer.disk)
  | .err e => (.err e, disk)
  | .panic => (.panic, disk)

/-- The physical plan of a statement. -/
def planSelect (stmt : Statement) (schema : TableSchema) : TextResult Physical.PhysicalPlan := do
  let logicalPlan ← Logical.lower stmt schema
  let logicalPlan ← Logical.optimize schema logicalPlan
  let physicalPlan ← Physical.lower logicalPlan
  .ok (Physical.optimize physicalPlan)

/-- What an execution error says. -/
def errorText : ExecutionError → String
  | .io e => "I/O error: " ++ e.message
  | .invalidData message => "invalid data: " ++ message
  | .arrow e => "arrow error: " ++ e.text

/-- Plan and build a SELECT, up to the first batch. -/
def runSelect (stmt : Statement) (schema : TableSchema) (tableDir : PartList) :
    TextResult RootExec := do
  let physicalPlan ← planSelect stmt schema
  (build physicalPlan schema tableDir).mapErr errorText

end TinyOlap
