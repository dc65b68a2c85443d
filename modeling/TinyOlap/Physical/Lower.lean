import Mathlib.Data.List.Dedup
import Mathlib.Data.List.Sort
import TinyOlap.Frontend.Validator
import TinyOlap.Library.Decimal
import TinyOlap.Logical.Operators
import TinyOlap.Physical.Operators

/-!
# From logical to physical plans

The names of all columns of the query are collected, and the scan reads exactly these. A
cast disappears: its literal becomes one of the target type, which must be able to hold it.
Aggregates become columns with a name of their own.
-/

set_option autoImplicit false

namespace TinyOlap.Physical

open Library Catalog Frontend
open Logical (LogicalExpr LogicalPlan)

/-! ## Columns -/

/-- `collect_expr_columns`. -/
def collectExprColumns : LogicalExpr → List String
  | .column _ col => [col]
  | .literal _ => []
  | .binaryOp left _ right => collectExprColumns left ++ collectExprColumns right
  | .aggregate _ arg => collectExprColumns arg
  | .cast expr _ => collectExprColumns expr

def collectColumns : LogicalPlan → List String
  | .scan _ => []
  | .filter predicate input => collectExprColumns predicate ++ collectColumns input
  | .project projections input =>
      projections.flatMap collectExprColumns ++ collectColumns input
  | .aggregate groupBy aggregates input =>
      (groupBy ++ aggregates).flatMap collectExprColumns ++ collectColumns input
  | .limit _ input => collectColumns input

/-- The names as an ordered set. -/
def orderedSet (names : List String) : List String :=
  names.dedup.mergeSort fun a b => decide (a ≤ b)

theorem mem_orderedSet {names : List String} {name : String} :
    name ∈ orderedSet names ↔ name ∈ names := by
  rw [orderedSet, (List.mergeSort_perm _ _).mem_iff, List.mem_dedup]

/-! ## Expressions -/

def aggFuncName : Logical.AggFunc → String
  | .count => "count"
  | .sum => "sum"
  | .avg => "avg"
  | .min => "min"
  | .max => "max"

/-- The text that stands for an expression in the name of an aggregate. -/
def exprDisplay : LogicalExpr → String
  | .column _ col => col
  | .literal (.int n) => toString n.val
  | .literal (.float f) => Decimal.display f
  | .literal (.str s) => s
  | .literal (.bool b) => toString b
  | .literal .null => "null"
  | .binaryOp .. => "<expr>"
  | .aggregate func arg => aggFuncName func ++ "(" ++ exprDisplay arg ++ ")"
  | .cast expr _ => exprDisplay expr

def lowerLiteral : Logical.LiteralValue → LiteralValue
  | .int n => .i64 n
  | .float f => .value .f64 f
  | .str s => .value .str s
  | .bool b => .bool b
  | .null => .null

/-- A literal of the target type. A literal that the type cannot hold is a panic. -/
def narrowLiteral (lit : Logical.LiteralValue) (target : DataType) : TextResult LiteralValue :=
  match lit, target with
  | .int v, .int t => do
      let n ← .orPanic (MachineInt.ofInt? t.signed t.top v.val)
      .ok (.value (.int t) n)
  | .int v, .f32 => .ok (.value .f32 (Ieee.ofInt 8 23 v.val))
  | .int v, .f64 => .ok (.value .f64 (Ieee.ofInt 11 52 v.val))
  | .float v, .f32 => .ok (.value .f32 (Ieee.convert 8 23 v))
  | .float v, .f64 => .ok (.value .f64 v)
  | .str s, .str => .ok (.value .str s)
  | .bool b, .bool => .ok (.value .bool b)
  | _, _ => .panic

/-- The physical expression of an operation. -/
def lowerOp (left : PhysicalExpr) (op : Logical.BinaryOp) (right : PhysicalExpr) : PhysicalExpr :=
  match op with
  | .eq => .compare left .eq right
  | .notEq => .compare left .notEq right
  | .lt => .compare left .lt right
  | .ltEq => .compare left .ltEq right
  | .gt => .compare left .gt right
  | .gtEq => .compare left .gtEq right
  | .and => .logical left .and right
  | .or => .logical left .or right

/-- `lower_expr`. -/
def lowerExpr : LogicalExpr → TextResult PhysicalExpr
  | .column _ col => .ok (.column col)
  | .literal lit => .ok (.literal (lowerLiteral lit))
  | .binaryOp left op right => do
      let left ← lowerExpr left
      let right ← lowerExpr right
      .ok (lowerOp left op right)
  | .aggregate func arg => .ok (.column (aggFuncName func ++ "(" ++ exprDisplay arg ++ ")"))
  | .cast (.literal lit) target => do
      let lit ← narrowLiteral lit target
      .ok (.literal lit)
  | .cast _ _ => .panic

def lowerAggFunc : Logical.AggFunc → AggFunc
  | .count => .count
  | .sum => .sum
  | .avg => .avg
  | .min => .min
  | .max => .max

def lowerAggSpec : LogicalExpr → TextResult AggSpec
  | .aggregate func arg => do
      let outputName := aggFuncName func ++ "(" ++ exprDisplay arg ++ ")"
      let arg ← lowerExpr arg
      .ok ⟨lowerAggFunc func, arg, outputName⟩
  | _ => .panic

/-! ## Plans -/

def lowerPlan (cols : List String) : LogicalPlan → TextResult PhysicalPlan
  | .scan table => .ok (.fullScan table cols)
  | .filter predicate input => do
      let predicate ← lowerExpr predicate
      let input ← lowerPlan cols input
      .ok (.filter predicate input)
  | .project projections input => do
      let projections ← projections.mapM lowerExpr
      let input ← lowerPlan cols input
      .ok (.project projections input)
  | .aggregate groupBy aggregates input => do
      let groupBy ← groupBy.mapM lowerExpr
      let aggregates ← aggregates.mapM lowerAggSpec
      let input ← lowerPlan cols input
      .ok (.aggregate groupBy aggregates input)
  | .limit limit input => do
      let input ← lowerPlan cols input
      .ok (.limit limit input)

/-- `lower`. -/
def lower (plan : LogicalPlan) : TextResult PhysicalPlan :=
  lowerPlan (orderedSet (collectColumns plan)) plan

end TinyOlap.Physical
