import TinyOlap.Catalog.Schema

/-!
# Logical plans

A logical plan says what a query computes, before anything is known of the types of its
literals. Columns are qualified with their table.
-/

set_option autoImplicit false

namespace TinyOlap.Logical

open Catalog

inductive LiteralValue where
  | int (v : I64)
  | float (v : F64)
  | str (s : String)
  | bool (b : Bool)
  | null
deriving DecidableEq

inductive BinaryOp where
  | eq | notEq | lt | ltEq | gt | gtEq | and | or
deriving DecidableEq, Repr

inductive AggFunc where
  | count | sum | avg | min | max
deriving DecidableEq, Repr

inductive LogicalExpr where
  | column (table name : String)
  | literal (lit : LiteralValue)
  | binaryOp (left : LogicalExpr) (op : BinaryOp) (right : LogicalExpr)
  | aggregate (func : AggFunc) (arg : LogicalExpr)
  | cast (expr : LogicalExpr) (targetDatatype : DataType)
deriving DecidableEq

inductive LogicalPlan where
  | scan (table : String)
  | filter (predicate : LogicalExpr) (input : LogicalPlan)
  | project (projections : List LogicalExpr) (input : LogicalPlan)
  | aggregate (groupBy aggregates : List LogicalExpr) (input : LogicalPlan)
  | limit (limit : Nat) (input : LogicalPlan)
deriving DecidableEq

end TinyOlap.Logical
