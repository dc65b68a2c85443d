import TinyOlap.Arrow.RecordBatch

/-!
# Physical plans

Expressions and plans as the executor gets them. A literal has one of the column
types, or is `NULL`. There is no aggregate expression: by the time an operator sees
the data, an aggregate is a column with the aggregate's name.
-/

set_option autoImplicit false

namespace TinyOlap.Physical

open Library Catalog

inductive LiteralValue where
  | value (t : DataType) (v : t.Native)
  | null

instance : DecidableEq LiteralValue
  | .null, .null => isTrue rfl
  | .null, .value _ _ => isFalse nofun
  | .value _ _, .null => isFalse nofun
  | .value t v, .value t' v' =>
      if same : t = t' then
        decidable_of_iff (same ▸ v = v') (by subst same; simp)
      else isFalse fun equal => same (by injection equal)

namespace LiteralValue

abbrev i64 (v : I64) : LiteralValue := value (.int .i64) v
abbrev u64 (v : U64) : LiteralValue := value (.int .u64) v
abbrev bool (b : Bool) : LiteralValue := value .bool b

end LiteralValue

inductive CmpOp where
  | eq | notEq | lt | ltEq | gt | gtEq
deriving DecidableEq, Repr

inductive LogicalOp where
  | and | or
deriving DecidableEq, Repr

inductive AggFunc where
  | count | sum | avg | min | max
deriving DecidableEq, Repr

inductive PhysicalExpr where
  | column (name : String)
  | literal (lit : LiteralValue)
  | compare (left : PhysicalExpr) (op : CmpOp) (right : PhysicalExpr)
  | logical (left : PhysicalExpr) (op : LogicalOp) (right : PhysicalExpr)
deriving DecidableEq

structure AggSpec where
  func : AggFunc
  arg : PhysicalExpr
  outputName : String
deriving DecidableEq

inductive PhysicalPlan where
  | fullScan (table : String) (columns : List String)
  | zoneMapScan (table : String) (columns : List String) (predicate : PhysicalExpr)
  | filter (predicate : PhysicalExpr) (input : PhysicalPlan)
  | project (projections : List PhysicalExpr) (input : PhysicalPlan)
  | aggregate (groupBy : List PhysicalExpr) (aggregates : List AggSpec) (input : PhysicalPlan)
  | limit (limit : Nat) (input : PhysicalPlan)
deriving DecidableEq

end TinyOlap.Physical
