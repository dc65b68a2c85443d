import TinyOlap.Frontend.Validator
import TinyOlap.Library.Decimal
import TinyOlap.Storage.TableWriter

/-!
# From an INSERT to a record batch

The rows of the VALUES clause are transposed into one array for each column of the schema.
The value at a position goes to the column at that position of the schema: neither the name
of the table nor the column list is looked at.
-/

set_option autoImplicit false

namespace TinyOlap.Dml

open Library Catalog Arrow Storage Frontend

/-- `extract_rows`. -/
def extractRows : Statement → TextResult (List (List Expr))
  | .insert i =>
      match i.source with
      | none => .err "INSERT without VALUES is not supported"
      | some source =>
          match source.body with
          | .values rows => .ok rows
          | _ => .err "INSERT only supports VALUES, not INSERT-from-SELECT"
  | _ => .err "not an INSERT statement"

/-- What a parser makes of a literal. -/
inductive Parsed (α : Type) where
  | ok (a : α)
  /-- The text of a number that the type does not have, and why. -/
  | malformed (text reason : String)
  /-- A literal of another kind. -/
  | mismatch

/-- The values of a column, row by row. -/
def parseColumn {α : Type} (expected : String) (parse : SqlValue → Parsed α)
    (rows : List (List Expr)) (colIdx : Nat) (colName : String) : TextResult (List α) :=
  rows.zipIdx.mapM fun (row, rowIdx) =>
    let place := "col " ++ colName ++ ", row " ++ toString rowIdx ++ ": "
    match row[colIdx]? with
    | none => .panic
    | some (.value v) =>
        match parse v with
        | .ok a => .ok a
        | .malformed text reason =>
            .err (place ++ "cannot parse '" ++ text ++ "' as numeric: " ++ reason)
        | .mismatch => .err (place ++ "expected " ++ expected ++ ", got " ++ v.debugText)
    | some other => .err (place ++ "expected literal, got " ++ other.debugText)

def parseNumeric {α : Type} (fromStr : String → Option α) (error : String → String) :
    List (List Expr) → Nat → String → TextResult (List α) :=
  parseColumn "number" fun
    | .number s =>
        match fromStr s with
        | some a => .ok a
        | none => .malformed s (error s)
    | _ => .mismatch

def parseBool : List (List Expr) → Nat → String → TextResult (List Bool) :=
  parseColumn "boolean" fun
    | .boolean b => .ok b
    | _ => .mismatch

def parseStr : List (List Expr) → Nat → String → TextResult (List String) :=
  parseColumn "single-quoted string" fun
    | .singleQuotedString s => .ok s
    | _ => .mismatch

/-- An array as it comes out of `build_column_array`: the offsets of a string array are
32-bit signed. -/
abbrev ColumnArray : Type := { array : ArrayRef // array.textBytes < 2 ^ 31 }

/-- An Arrow array of values. Too many bytes of text are a panic. -/
def arrayFrom (type : ArrowType) (values : List type.Native) : TextResult ColumnArray :=
  if fits : (ArrayRef.mk type values).textBytes < 2 ^ 31 then .ok ⟨⟨type, values⟩, fits⟩
  else .panic

def buildColumnArray (col : ColumnSchema) (colIdx : Nat) (rows : List (List Expr)) :
    TextResult ColumnArray :=
  match col.dataType with
  | .int t => do
      let values ← parseNumeric (Decimal.parseInt t.signed t.top) Decimal.intError rows colIdx
        col.name
      arrayFrom (.data (.int t)) values
  | .f32 => do
      let values ← parseNumeric (Decimal.parseFloat 8 23) Decimal.floatError rows colIdx col.name
      arrayFrom (.data .f32) values
  | .f64 => do
      let values ← parseNumeric (Decimal.parseFloat 11 52) Decimal.floatError rows colIdx col.name
      arrayFrom (.data .f64) values
  | .bool => do
      let values ← parseBool rows colIdx col.name
      arrayFrom (.data .bool) values
  | .str => do
      let values ← parseStr rows colIdx col.name
      arrayFrom (.data .str) values

/-- Row widths are validated up front. -/
def checkWidths (schema : TableSchema) (rows : List (List Expr)) : TextResult Unit :=
  rows.zipIdx.forM fun (row, i) =>
    if row.length ≠ schema.columns.length then
      .err ("row " ++ toString i ++ ": expected " ++ toString schema.columns.length ++
        " values, got " ++ toString row.length)
    else .ok ()

/-- Arrays under the fields of a schema. -/
def makeBatch (fields : List Field) (arrays : List ColumnArray) : TextResult InsertBatch :=
  match made : RecordBatch.tryNew fields (arrays.map Subtype.val) with
  | .ok batch => .ok ⟨batch, by
      intro a member
      rw [(RecordBatch.of_tryNew_eq_ok made).2.1] at member
      obtain ⟨array, _, rfl⟩ := List.mem_map.mp member
      exact array.2⟩
  | .err e => .err e.text
  | .panic => .panic

/-- `build_record_batch`. -/
def buildRecordBatch (stmt : Statement) (schema : TableSchema) : TextResult InsertBatch := do
  let rows ← extractRows stmt
  checkWidths schema rows
  let arrays ← schema.columns.zipIdx.mapM fun (col, colIdx) => buildColumnArray col colIdx rows
  makeBatch (schema.columns.map Field.ofColumn) arrays

end TinyOlap.Dml
