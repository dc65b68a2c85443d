import Mathlib.Data.List.Dedup
import TinyOlap.Logical.Operators
import TinyOlap.Physical.Meaning

/-!
# What a logical plan says

This is not code but the yardstick for it: the relational meaning of a plan over a table. A
plan is a list of rows, or undefined. A row gives values to expressions: a scan to the columns
of the table, a projection to the expressions it projects, and an aggregation to the group
columns and the aggregates.

A number in a query has no type of its own. Next to a value it is taken as one of the
value's type, if that type can hold it, and a cast asks for the type outright. Operands
that are not comparable make the plan undefined, and so does everything that is not there.
-/

set_option autoImplicit false

namespace TinyOlap.Logical

open Library Catalog

/-! ## Values -/

/-- The value of an expression. A number that was written in the query has no type yet. -/
inductive Datum where
  | typed (t : DataType) (v : t.Native)
  | integer (v : I64)
  | float (v : F64)
  | null

instance : DecidableEq Datum
  | .typed t v, .typed t' v' =>
      if same : t = t' then
        decidable_of_iff (same ▸ v = v') (by subst same; simp)
      else isFalse fun equal => same (by injection equal)
  | .integer v, .integer w => decidable_of_iff (v = w) (by simp)
  | .float v, .float w => decidable_of_iff (v = w) (by simp)
  | .null, .null => isTrue rfl
  | .typed .., .integer _ | .typed .., .float _ | .typed .., .null => isFalse nofun
  | .integer _, .typed .. | .integer _, .float _ | .integer _, .null => isFalse nofun
  | .float _, .typed .. | .float _, .integer _ | .float _, .null => isFalse nofun
  | .null, .typed .. | .null, .integer _ | .null, .float _ => isFalse nofun

/-- What the meaning of a plan leaves open: which types can hold a number, beyond those that
have it as a value, and what an aggregate function makes of the values of a group. -/
structure Interpretation where
  integer : I64 → (t : DataType) → Option t.Native
  float : F64 → (t : DataType) → Option t.Native
  aggregate : AggFunc → List Datum → Option Datum
  /-- An integer type that can hold an integer keeps its value. -/
  integer_int : ∀ (v : I64) (t : IntType) (n : t.Native), n.val = v.val →
    integer v (.int t) = some n
  float_f64 : ∀ v, float v .f64 = some v

/-- The narrowest interpretation: a number is only a value of the types that have it as it is
written, and nothing is aggregated but counted. -/
def Interpretation.exact : Interpretation where
  integer v
    | .int t => MachineInt.ofInt? t.signed t.top v.val
    | _ => none
  float v
    | .f64 => some v
    | _ => none
  aggregate
    | .count, values => some (.typed (.int .u64) (MachineInt.wrap false 63 values.length))
    | _, _ => none
  integer_int _ _ _ same := MachineInt.ofInt?_eq_some.mpr same
  float_f64 _ := rfl

def LiteralValue.datum : LiteralValue → Datum
  | .int v => .integer v
  | .float f => .float f
  | .str s => .typed .str s
  | .bool b => .typed .bool b
  | .null => .null

/-- The comparison that an operator stands for. -/
def BinaryOp.test : BinaryOp → Option (Ordering → Bool)
  | .eq => some Physical.CmpOp.eq.test
  | .notEq => some Physical.CmpOp.notEq.test
  | .lt => some Physical.CmpOp.lt.test
  | .ltEq => some Physical.CmpOp.ltEq.test
  | .gt => some Physical.CmpOp.gt.test
  | .gtEq => some Physical.CmpOp.gtEq.test
  | .and | .or => none

def Datum.asBool : Datum → Option Bool
  | .typed .bool b => some b
  | _ => none

namespace Interpretation

variable (I : Interpretation)

/-- A value as one of a type. -/
def as (t : DataType) : Datum → Option t.Native
  | .typed t' v => if same : t' = t then some (same ▸ v) else none
  | .integer v => I.integer v t
  | .float v => I.float v t
  | .null => none

/-- The order of two values, if they are comparable. -/
def compare : Datum → Datum → Option Ordering
  | .typed t a, d => (I.as t d).map fun b => Physical.cmpNative t a b
  | d, .typed t b => (I.as t d).map fun a => Physical.cmpNative t a b
  | .integer a, .integer b => some (Physical.cmpInt a.val b.val)
  | .float a, .float b => some (Physical.cmpNative .f64 a b)
  | _, _ => none

def binaryOp (left : Datum) (op : BinaryOp) (right : Datum) : Option Datum :=
  match op with
  | .and => do
      let a ← left.asBool
      let b ← right.asBool
      some (.typed .bool (a && b))
  | .or => do
      let a ← left.asBool
      let b ← right.asBool
      some (.typed .bool (a || b))
  | op => do
      let test ← op.test
      let order ← I.compare left right
      some (.typed .bool (test order))

/-! ## Expressions -/

/-- A row gives values to expressions. -/
abbrev Row : Type := List (LogicalExpr × Datum)

/-- **The value of an expression in a row.** Columns and aggregates are looked up. -/
def eval (row : Row) : LogicalExpr → Option Datum
  | .column table col => row.lookup (.column table col)
  | .aggregate func arg => row.lookup (.aggregate func arg)
  | .literal lit => some lit.datum
  | .binaryOp left op right => do
      let a ← eval row left
      let b ← eval row right
      I.binaryOp a op b
  | .cast expr target => do
      let a ← eval row expr
      (I.as target a).map (.typed target)

/-! ## Plans -/

/-- The value of an expression, under that expression. -/
def cell (row : Row) (e : LogicalExpr) : Option (LogicalExpr × Datum) :=
  (I.eval row e).map fun d => (e, d)

def filterRows (predicate : LogicalExpr) (rows : List Row) : Option (List Row) := do
  let tested ← rows.mapM fun row => do
    let d ← I.eval row predicate
    let b ← d.asBool
    some (row, b)
  some ((tested.filter Prod.snd).map Prod.fst)

/-- The aggregates of a group. -/
def aggregateCell (group : List Row) (e : LogicalExpr) : Option (LogicalExpr × Datum) :=
  match e with
  | .aggregate func arg => do
      let values ← group.mapM fun row => I.eval row arg
      (I.aggregate func values).map fun d => (.aggregate func arg, d)
  | _ => none

/-- One row for each group. Without group columns all rows are one group. -/
def aggregateRows (groupBy aggregates : List LogicalExpr) (rows : List Row) :
    Option (List Row) := do
  let keyed ← rows.mapM fun row => (groupBy.mapM (I.eval row)).map fun key => (key, row)
  let keys := if groupBy.isEmpty then [[]] else (keyed.map Prod.fst).dedup
  keys.mapM fun key => do
    let group := (keyed.filter fun entry => entry.1 = key).map Prod.snd
    let values ← aggregates.mapM (I.aggregateCell group)
    some (groupBy.zip key ++ values)

end Interpretation

/-- A value of a type. -/
def Datum.HasType (t : DataType) (d : Datum) : Prop := ∃ v, d = .typed t v

/-- The rows of a table have values of the types of the columns. -/
structure Table (schema : TableSchema) where
  rows : List (List Datum)
  typed : ∀ row ∈ rows, List.Forall₂ (fun (c : ColumnSchema) d => d.HasType c.dataType)
    schema.columns row

/-- **The rows of a plan.** -/
def Interpretation.meaning (I : Interpretation) {schema : TableSchema} (table : Table schema) :
    LogicalPlan → Option (List Row)
  | .scan name =>
      if name = schema.name then
        some (table.rows.map ((schema.columns.map fun c => .column schema.name c.name).zip ·))
      else none
  | .filter predicate input => do
      let rows ← I.meaning table input
      I.filterRows predicate rows
  | .project projections input => do
      let rows ← I.meaning table input
      rows.mapM fun row => projections.mapM (I.cell row)
  | .aggregate groupBy aggregates input => do
      let rows ← I.meaning table input
      I.aggregateRows groupBy aggregates rows
  | .limit limit input => do
      let rows ← I.meaning table input
      some (rows.take limit)

/-- The rows as lists of values. -/
def values (rows : List Interpretation.Row) : List (List Datum) := rows.map (List.map Prod.snd)

end TinyOlap.Logical
