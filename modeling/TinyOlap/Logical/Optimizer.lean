import TinyOlap.Frontend.Validator
import TinyOlap.Logical.Operators

/-!
# The logical optimizer

Three rules are applied in order, each to every node of the plan from the bottom up. Type
coercion puts a cast around a literal that is compared with a column, constant folding
evaluates comparisons of integer literals and shortens AND and OR with a constant on the
left, and filters that are always true are removed.
-/

set_option autoImplicit false

namespace TinyOlap.Logical

open Library Catalog Frontend

/-! ## Rules -/

/-- A rule rewrites a plan. It may panic. -/
structure OptimizerRule where
  name : String
  apply : LogicalPlan → TextResult LogicalPlan

/-- Apply a function to every node, to the children before the parent. -/
def rewrite (plan : LogicalPlan) (f : LogicalPlan → TextResult LogicalPlan) :
    TextResult LogicalPlan :=
  match plan with
  | .filter predicate input => do
      let newInput ← rewrite input f
      f (.filter predicate newInput)
  | .project projections input => do
      let newInput ← rewrite input f
      f (.project projections newInput)
  | .aggregate groupBy aggregates input => do
      let newInput ← rewrite input f
      f (.aggregate groupBy aggregates newInput)
  | .limit limit input => do
      let newInput ← rewrite input f
      f (.limit limit newInput)
  | leaf => f leaf

/-! ## Type coercion -/

def isComparisonOp : BinaryOp → Bool
  | .eq | .notEq | .lt | .ltEq | .gt | .gtEq => true
  | .and | .or => false

/-- The type of the column that a literal is compared with. A column that is not in the
schema is a panic. -/
def targetType (schema : TableSchema) (col : String) : TextResult DataType := do
  let c ← .orPanic (schema.find col)
  .ok c.dataType

/-- Insert the cast where it is required. -/
def coerceComparison (left : LogicalExpr) (op : BinaryOp) (right : LogicalExpr)
    (schema : TableSchema) : TextResult LogicalExpr :=
  match left, right with
  | .column table col, .literal lit => do
      let target ← targetType schema col
      .ok (.binaryOp (.column table col) op (.cast (.literal lit) target))
  | .literal lit, .column table col => do
      let target ← targetType schema col
      .ok (.binaryOp (.cast (.literal lit) target) op (.column table col))
  | left, right => .ok (.binaryOp left op right)

/-- Only comparisons are coerced. -/
def coerceExpr (schema : TableSchema) : LogicalExpr → TextResult LogicalExpr
  | .binaryOp left op right => do
      let left ← coerceExpr schema left
      let right ← coerceExpr schema right
      if isComparisonOp op then coerceComparison left op right schema
      else .ok (.binaryOp left op right)
  | .cast expr target => do
      let expr ← coerceExpr schema expr
      .ok (.cast expr target)
  | other => .ok other

def typeCoercion (schema : TableSchema) : OptimizerRule where
  name := "type_coercion"
  apply plan := rewrite plan fun
    | .filter predicate input => do
        let predicate ← coerceExpr schema predicate
        .ok (.filter predicate input)
    | other => .ok other

/-! ## Constant folding -/

/-- A comparison of integers. -/
def foldInt (a : I64) (op : BinaryOp) (b : I64) : Option Bool :=
  match op with
  | .eq => some (decide (a.val = b.val))
  | .notEq => some (decide (a.val ≠ b.val))
  | .lt => some (decide (a.val < b.val))
  | .ltEq => some (decide (a.val ≤ b.val))
  | .gt => some (decide (a.val > b.val))
  | .gtEq => some (decide (a.val ≥ b.val))
  | .and | .or => none

/-- Evaluate operations whose operands are literals. -/
def foldExpr : LogicalExpr → LogicalExpr
  | .binaryOp left op right =>
      let left := foldExpr left
      let right := foldExpr right
      match left, op, right with
      | .literal (.int a), _, .literal (.int b) =>
          match foldInt a op b with
          | some result => .literal (.bool result)
          | none => .binaryOp left op right
      | .literal (.bool true), .and, _ => right
      | .literal (.bool false), .and, _ => .literal (.bool false)
      | .literal (.bool true), .or, _ => .literal (.bool true)
      | .literal (.bool false), .or, _ => right
      | _, _, _ => .binaryOp left op right
  | other => other

def constantFolding : OptimizerRule where
  name := "constant_folding"
  apply plan := rewrite plan fun
    | .filter predicate input => .ok (.filter (foldExpr predicate) input)
    | .project projections input => .ok (.project (projections.map foldExpr) input)
    | other => .ok other

/-! ## Filters that are always true -/

def eliminateTrueFilter : OptimizerRule where
  name := "eliminate_true_filter"
  apply plan := rewrite plan fun
    | .filter (.literal (.bool true)) input => .ok input
    | other => .ok other

/-! ## The optimizer -/

def rules (schema : TableSchema) : List OptimizerRule :=
  [typeCoercion schema, constantFolding, eliminateTrueFilter]

/-- `Optimizer::optimize`. -/
def optimize (schema : TableSchema) (plan : LogicalPlan) : TextResult LogicalPlan :=
  (rules schema).foldlM (fun plan rule => rule.apply plan) plan

/-- The optimizer is one rule after the other. -/
theorem optimize_eq (schema : TableSchema) (plan : LogicalPlan) :
    optimize schema plan = ((typeCoercion schema).apply plan >>= constantFolding.apply >>=
      eliminateTrueFilter.apply) := by
  rw [optimize, rules, List.foldlM_cons]
  cases (typeCoercion schema).apply plan with
  | err e => rfl
  | panic => rfl
  | ok coerced =>
      rw [Outcome.ok_bind, Outcome.ok_bind, List.foldlM_cons]
      cases constantFolding.apply coerced with
      | err e => rfl
      | panic => rfl
      | ok folded =>
          rw [Outcome.ok_bind, Outcome.ok_bind, List.foldlM_cons]
          cases eliminateTrueFilter.apply folded <;> rfl

end TinyOlap.Logical
