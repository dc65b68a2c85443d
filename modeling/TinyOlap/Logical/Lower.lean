import TinyOlap.Frontend.Validator
import TinyOlap.Library.Decimal
import TinyOlap.Logical.Operators

/-!
# From statements to logical plans

Lowers a validated statement. Names are resolved here: bare column names are qualified with
the table. Aggregates are collected from the SELECT list into a node of their own, and
stand in the projection as well.
-/

set_option autoImplicit false

namespace TinyOlap.Logical

open Library Catalog Frontend

/-- Numbers are tried as integers first, then as floats. -/
def lowerLiteral : SqlValue → TextResult LiteralValue
  | .number n =>
      match Decimal.parseInt true 63 n with
      | some i => .ok (.int i)
      | none =>
          match Decimal.parseFloat 11 52 n with
          | some f => .ok (.float f)
          | none => .err ("cannot parse number: " ++ n)
  | .singleQuotedString s => .ok (.str s)
  | .boolean b => .ok (.bool b)
  | .null => .ok .null
  | .other debug => .err ("unsupported literal: " ++ debug)

def lowerBinaryOp : BinaryOperator → TextResult BinaryOp
  | .eq => .ok .eq
  | .notEq => .ok .notEq
  | .lt => .ok .lt
  | .ltEq => .ok .ltEq
  | .gt => .ok .gt
  | .gtEq => .ok .gtEq
  | .and => .ok .and
  | .or => .ok .or
  | .other debug => .err ("unsupported operator: " ++ debug)

/-- The aggregate function of a name, in any case. -/
def aggFunc (name : String) : TextResult AggFunc :=
  let name := toUppercase name
  if name = "COUNT" then .ok .count
  else if name = "SUM" then .ok .sum
  else if name = "AVG" then .ok .avg
  else if name = "MIN" then .ok .min
  else if name = "MAX" then .ok .max
  else .err ("unsupported aggregate function: " ++ name)

mutual

/-- `lower_expr`. -/
def lowerExpr (schema : TableSchema) : Expr → TextResult LogicalExpr
  | .identifier name => do
      let col ← .ofOption ("Unknown column: " ++ name) (schema.find name)
      .ok (.column schema.name col.name)
  | .compoundIdentifier [table, name] => .ok (.column table name)
  | .value val => do
      let lit ← lowerLiteral val
      .ok (.literal lit)
  | .binaryOp left op right => do
      let left ← lowerExpr schema left
      let right ← lowerExpr schema right
      let op ← lowerBinaryOp op
      .ok (.binaryOp left op right)
  | .function name args _ _ _ => do
      let func ← aggFunc name
      let arg ← lowerArguments schema args
      .ok (.aggregate func arg)
  | .compoundIdentifier parts =>
      .err ("Unsupported expression: " ++ (Expr.compoundIdentifier parts).debugText)
  | .unaryOp op operand => .err ("Unsupported expression: " ++ (Expr.unaryOp op operand).debugText)
  | .subquery => .err ("Unsupported expression: " ++ Expr.subquery.debugText)
  | .other debug _ => .err ("Unsupported expression: " ++ debug)

/-- The argument of an aggregate: the first one. -/
def lowerArguments (schema : TableSchema) : FunctionArguments Expr → TextResult LogicalExpr
  | .list _ args => lowerFirst schema args
  | .none | .subquery => .err "unsupported aggregate argument form"

def lowerFirst (schema : TableSchema) : List (FunctionArg Expr) → TextResult LogicalExpr
  | arg :: _ => lowerArg schema arg
  | [] => .err "unsupported aggregate argument"

def lowerArg (schema : TableSchema) : FunctionArg Expr → TextResult LogicalExpr
  | .unnamed e => lowerExpr schema e
  | .wildcard | .named .. => .err "unsupported aggregate argument"

end

/-- A wildcard expands to the columns of the schema, in order. -/
def lowerSelectItem (schema : TableSchema) : SelectItem → TextResult (List LogicalExpr)
  | .wildcard _ => .ok (schema.columns.map fun c => .column schema.name c.name)
  | .unnamedExpr expr | .exprWithAlias expr _ => do
      let expr ← lowerExpr schema expr
      .ok [expr]
  | .other => .err "unsupported SELECT item"

def lowerProjection (projection : List SelectItem) (schema : TableSchema) :
    TextResult (List LogicalExpr) :=
  List.flatten <$> projection.mapM (lowerSelectItem schema)

def lowerGroupBy (groupBy : GroupByExpr) (schema : TableSchema) : TextResult (List LogicalExpr) :=
  match groupBy with
  | .expressions exprs _ => exprs.mapM (lowerExpr schema)
  | .all => .err "Unsupported GROUP BY form"

/-- Only a number can be a limit. An offset is not read. -/
def lowerLimit : LimitClause → TextResult Nat
  | .limitOffset (some (.value (.number n))) _ =>
      match Decimal.parseInt false 63 n with
      | some limit => .ok limit.val.toNat
      | none => .err ("invalid LIMIT value: " ++ n)
  | .limitOffset (some (.value _)) _ => .err "LIMIT must be a number"
  | _ => .err "unsupported LIMIT clause"

/-- The call that an item of the SELECT list is, if it is one. -/
def aggregateItem : SelectItem → Option Expr
  | .unnamedExpr (.function name args filter overClause clauses)
  | .exprWithAlias (.function name args filter overClause clauses) _ =>
      some (.function name args filter overClause clauses)
  | _ => none

def collectAggregates (projection : List SelectItem) (schema : TableSchema) :
    TextResult (List LogicalExpr) :=
  (projection.filterMap aggregateItem).mapM (lowerExpr schema)

/-- The plan is built bottom-up. -/
def lowerQuery (query : Query) (schema : TableSchema) : TextResult LogicalPlan :=
  match query.body with
  | .select select => do
      let plan ← match select.selection with
        | some predicate => do
            let predicate ← lowerExpr schema predicate
            .ok (LogicalPlan.filter predicate (.scan schema.name))
        | none => .ok (.scan schema.name)
      let groupBy ← lowerGroupBy select.groupBy schema
      let aggregates ← collectAggregates select.projection schema
      let plan := if groupBy.isEmpty && aggregates.isEmpty then plan
        else .aggregate groupBy aggregates plan
      let projections ← lowerProjection select.projection schema
      let plan := .project projections plan
      match query.limitClause with
      | some limitExpr => do
          let limit ← lowerLimit limitExpr
          .ok (.limit limit plan)
      | none => .ok plan
  | _ => .err "Only SELECT is supported"

/-- `lower`. -/
def lower (stmt : Statement) (schema : TableSchema) : TextResult LogicalPlan :=
  match stmt with
  | .query query => lowerQuery query schema
  | _ => .err "only SELECT is supported in the lowerer"

end TinyOlap.Logical
