import Mathlib.Data.List.Sort
import TinyOlap.Frontend.Analyzer
import TinyOlap.Logical.Meaning

/-!
# What a query says

This is not code either, but the other yardstick: the meaning of a SELECT over one table as SQL
has it, whether or not the lowering reads a clause. Rows are kept by WHERE, grouped, kept by
HAVING, sorted by ORDER BY, projected, and cut by OFFSET and LIMIT, in this order. The values of
a call are those of the rows of a group that its FILTER keeps, once each if it says DISTINCT.

A query with a clause that is given no meaning here has none.
-/

set_option autoImplicit false

namespace TinyOlap.Logical

open Library Catalog Frontend

/-! ## Literals and operators -/

/-- A number is an integer if it is a signed 64-bit one, else a float. -/
def literalDatum : SqlValue → Option Datum
  | .number text =>
      match Decimal.parseInt true 63 text with
      | some i => some (.integer i)
      | none => (Decimal.parseFloat 11 52 text).map .float
  | .singleQuotedString s => some (.typed .str s)
  | .boolean b => some (.typed .bool b)
  | .null => some .null
  | .other _ => none

def operator : BinaryOperator → Option BinaryOp
  | .eq => some .eq
  | .notEq => some .notEq
  | .lt => some .lt
  | .ltEq => some .ltEq
  | .gt => some .gt
  | .gtEq => some .gtEq
  | .and => some .and
  | .or => some .or
  | .other _ => none

/-- The aggregate functions have names in any case. -/
def aggregateNamed (name : String) : Option AggFunc :=
  [("COUNT", AggFunc.count), ("SUM", .sum), ("AVG", .avg), ("MIN", .min), ("MAX", .max)].lookup
    (toUppercase name)

/-- The column that an expression names, with or without the table in front. -/
def columnName (schema : TableSchema) : Expr → Option String
  | .identifier name => some name
  | .compoundIdentifier [table, name] => if table = schema.name then some name else none
  | _ => none

/-! ## Rows and groups -/

/-- The values of columns. -/
abbrev Bindings : Type := List (String × Datum)

/-- The rows with equal values in the group columns. -/
structure Group where
  key : Bindings
  rows : List Bindings

namespace Interpretation

variable (I : Interpretation) (schema : TableSchema)

/-- The value of an expression in a row. A call has none. -/
def rowValue (row : Bindings) : Expr → Option Datum
  | .value v => literalDatum v
  | .binaryOp left op right => do
      let a ← rowValue row left
      let b ← rowValue row right
      let op ← operator op
      I.binaryOp a op b
  | e => do
      let name ← columnName schema e
      row.lookup name

/-- Keep what a predicate holds of, if there is one. -/
def keep {α : Type} (value : α → Expr → Option Datum) (predicate : Option Expr) (items : List α) :
    Option (List α) :=
  match predicate with
  | none => some items
  | some predicate => do
      let tested ← items.mapM fun item => do
        let d ← value item predicate
        let b ← d.asBool
        some (item, b)
      some ((tested.filter Prod.snd).map Prod.fst)

/-- The value of an expression in a group: a column has one if it is a group column, and a call
has that of its function on the values of its argument. -/
def groupValue (group : Group) : Expr → Option Datum
  | .value v => literalDatum v
  | .binaryOp left op right => do
      let a ← groupValue group left
      let b ← groupValue group right
      let op ← operator op
      I.binaryOp a op b
  | .function name (.list distinct [.unnamed arg]) filter false [] => do
      let func ← aggregateNamed name
      let kept ← keep (I.rowValue schema) filter group.rows
      let values ← kept.mapM fun row => I.rowValue schema row arg
      I.aggregate func (if distinct then values.dedup else values)
  | e => do
      let name ← columnName schema e
      group.key.lookup name

/-- One group for each key. Without group columns all rows are one group. -/
def groups (columns : List String) (rows : List Bindings) : Option (List Group) := do
  let keyed ← rows.mapM fun row => (columns.mapM fun name => row.lookup name).map fun key =>
    (key, row)
  let keys := if columns.isEmpty then [[]] else (keyed.map Prod.fst).dedup
  some (keys.map fun key =>
    ⟨columns.zip key, (keyed.filter fun entry => entry.1 = key).map Prod.snd⟩)

end Interpretation

/-! ## Clauses -/

def isCall : Expr → Bool
  | .function .. => true
  | _ => false

/-- Results are of groups if the query has group columns, calls or a HAVING clause. -/
def ofGroups (select : Select) (keys : List Expr) : Bool :=
  !keys.isEmpty || select.having.isSome ||
    ((select.projection.flatMap SelectItem.exprs).flatMap Expr.visited).any isCall

/-- The number that a LIMIT or an OFFSET is. -/
def countOf : Expr → Option Nat
  | .value (.number text) => (Decimal.parseInt false 63 text).map fun n => n.val.toNat
  | _ => none

/-- Skip rows, then take some. -/
def slice {α : Type} (rows : List α) : Option LimitClause → Option (List α)
  | none => some rows
  | some (.limitOffset limit offset) => do
      let skipped ← (offset.map countOf).getD (some 0)
      match limit with
      | none => some (rows.drop skipped)
      | some limit => (countOf limit).map fun n => (rows.drop skipped).take n
  | some (.offsetCommaLimit offset limit) => do
      let skipped ← countOf offset
      let n ← countOf limit
      some ((rows.drop skipped).take n)

namespace Interpretation

variable (I : Interpretation) (schema : TableSchema)

/-- What is in a row or group of the result: the values of expressions. -/
abbrev Scope : Type := Expr → Option Datum

def itemValues (scope : Scope) : SelectItem → Option (List Datum)
  | .wildcard [] => schema.columns.mapM fun c => scope (.identifier c.name)
  | .unnamedExpr e | .exprWithAlias e _ => (scope e).map fun d => [d]
  | .wildcard (_ :: _) | .other => none

def scopes (select : Select) (keys : List Expr) (rows : List Bindings) : Option (List Scope) := do
  let kept ← keep (I.rowValue schema) select.selection rows
  if ofGroups select keys then do
    let columns ← keys.mapM (columnName schema)
    let grouped ← groups columns kept
    let grouped ← keep (I.groupValue schema) select.having grouped
    some (grouped.map (I.groupValue schema))
  else some (kept.map (I.rowValue schema))

/-- Sort keys in ascending order. Values that are not comparable count as equal. -/
def before : List Datum → List Datum → Bool
  | a :: as, b :: bs =>
      match I.compare a b with
      | some .lt => true
      | some .gt => false
      | some .eq | none => before as bs
  | _, _ => true

def sorted (orderBy : List Expr) (scopes : List Scope) : Option (List Scope) := do
  let keyed ← scopes.mapM fun scope => (orderBy.mapM scope).map fun key => (key, scope)
  some ((keyed.insertionSort fun a b => I.before a.1 b.1).map Prod.snd)

/-- **The rows of a query** over a table. -/
def queryMeaning {schema : TableSchema} (table : Table schema) (query : Query) :
    Option (List (List Datum)) :=
  match query with
  | { «with» := false, body := .select select, fetch := false, clauses := [],
      orderBy, limitClause } =>
      match select with
      | { distinct := false, «from» := [⟨.table name [], []⟩], clauses := [],
          groupBy := .expressions keys [], .. } => do
          guard (name = schema.name)
          let rows := table.rows.map ((schema.columns.map ColumnSchema.name).zip ·)
          let scopes ← I.scopes schema select keys rows
          let scopes ← I.sorted orderBy scopes
          let outputs ← scopes.mapM fun scope =>
            (select.projection.mapM (itemValues schema scope)).map List.flatten
          slice outputs limitClause
      | _ => none
  | _ => none

end Interpretation

end TinyOlap.Logical
