import TinyOlap.Catalog.Schema
import TinyOlap.Frontend.Validator
import TinyOlap.Library.Decimal

/-!
# Semantic validation

Checks that the tables and columns a query names exist, and that literals suit the columns
they are compared with. Every table and every expression of the query is visited, up to the
first error. Inserts are not analyzed.
-/

set_option autoImplicit false

namespace TinyOlap.Frontend

open Library Catalog

/-- `resolve_column`. -/
def resolveColumn (schema : TableSchema) (name : String) : TextResult ColumnSchema :=
  .ofOption ("unknown column: " ++ name) (schema.find name)

/-- The column of a bare or qualified name. -/
def resolveColumnExpr (schema : TableSchema) : Expr → TextResult (Option ColumnSchema)
  | .identifier name => some <$> resolveColumn schema name
  | .compoundIdentifier [tableName, colName] =>
      if tableName ≠ schema.name then
        .err ("unknown table in qualified reference: " ++ tableName)
      else some <$> resolveColumn schema colName
  | _ => .ok none

def literalExpr : Expr → Option SqlValue
  | .value v => some v
  | _ => none

/-- Numbers must be in the range of an integer column, and numbers and strings may not be
mixed. -/
def checkTypeCompat (dataType : DataType) (val : SqlValue) : TextResult Unit :=
  match val, dataType with
  | .number _, .bool | .number _, .str =>
      .err "type mismatch: numeric literal compared to non-numeric column"
  | .singleQuotedString _, .int _ | .singleQuotedString _, .f32 | .singleQuotedString _, .f64 =>
      .err "type mismatch: string literal compared to numeric column"
  | .number _, .f32 | .number _, .f64 => .ok ()
  | .number s, .int t =>
      match Decimal.parseInt true 127 s with
      | none =>
          .err ("type mismatch: non-integer literal " ++ s ++ " compared to integer column")
      | some n =>
          if n.val < minVal t.signed t.top ∨ maxVal t.signed t.top < n.val then
            .err ("literal " ++ s ++ " is out of range for column type " ++ typeText dataType ++
              " (" ++ toString (minVal t.signed t.top) ++ "..=" ++
              toString (maxVal t.signed t.top) ++ ")")
          else .ok ()
  | _, _ => .ok ()

/-- One side of a comparison is a column and the other a literal. -/
def checkSides (schema : TableSchema) (column literal : Expr) : TextResult Unit := do
  let col ← resolveColumnExpr schema column
  match col, literalExpr literal with
  | some col, some val => checkTypeCompat col.dataType val
  | _, _ => .ok ()

/-- `pre_visit_expr`. -/
def preVisitExpr (schema : TableSchema) : Expr → TextResult Unit
  | .identifier name => do
      let _ ← resolveColumn schema name
      .ok ()
  | .compoundIdentifier [tableName, colName] => do
      let _ ← resolveColumnExpr schema (.compoundIdentifier [tableName, colName])
      .ok ()
  | .binaryOp left _ right => do
      checkSides schema left right
      checkSides schema right left
  | _ => .ok ()

/-- `pre_visit_table_factor`. -/
def preVisitTableFactor (schema : TableSchema) : TableFactor → TextResult Unit
  | .table name _ => if name ≠ schema.name then .err ("Unknown table: " ++ name) else .ok ()
  | .other => .ok ()

/-- The expressions of an item of the SELECT list. -/
def SelectItem.exprs : SelectItem → List Expr
  | .unnamedExpr e | .exprWithAlias e _ => [e]
  | .wildcard clauses => clauses.flatMap Clause.exprs
  | .other => []

/-- The expressions of a table. -/
def TableFactor.exprs : TableFactor → List Expr
  | .table _ clauses => clauses.flatMap Clause.exprs
  | .other => []

def GroupByExpr.exprs : GroupByExpr → List Expr
  | .expressions exprs _ => exprs
  | .all => []

def LimitClause.exprs : LimitClause → List Expr
  | .limitOffset limit offset => limit.toList ++ offset.toList
  | .offsetCommaLimit offset limit => [offset, limit]

/-- Visit expressions with everything in them. -/
def visitExprs (schema : TableSchema) (exprs : List Expr) : TextResult Unit :=
  (exprs.flatMap Expr.visited).forM (preVisitExpr schema)

def visitSetExpr (schema : TableSchema) : SetExpr → TextResult Unit
  | .select select => do
      visitExprs schema (select.projection.flatMap SelectItem.exprs)
      let tables := select.from.flatMap fun from' => from'.relation :: from'.joins
      tables.forM (preVisitTableFactor schema)
      visitExprs schema (tables.flatMap TableFactor.exprs)
      visitExprs schema (select.selection.toList ++ select.groupBy.exprs ++ select.having.toList ++
        select.clauses.flatMap Clause.exprs)
  | .values rows => visitExprs schema rows.flatten
  | .other => .ok ()

/-- `analyze`. -/
def analyze (stmt : Statement) (schema : TableSchema) : TextResult Unit :=
  match stmt with
  | .insert _ => .ok ()
  | .query query => do
      visitSetExpr schema query.body
      visitExprs schema (query.orderBy ++ query.limitClause.toList.flatMap LimitClause.exprs ++
        query.clauses.flatMap Clause.exprs)
  | .other => .err "unsupported statement type"

end TinyOlap.Frontend
