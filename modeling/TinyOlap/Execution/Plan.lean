import TinyOlap.Execution.Aggregation.Aggregate
import TinyOlap.Execution.RowOperators
import TinyOlap.Execution.Scan

/-!
# Operator trees

The operators of a plan are a chain with a scan at its end. The tree holds the state of
each of its operators; a turn of the tree is a turn of the scan, which the operators
above it answer one after the other.
-/

set_option autoImplicit false

namespace TinyOlap.Execution

open Library Library.WorkPool Catalog Arrow Storage Physical

inductive ExecutionPlan where
  | fullScan (s : FullScanExec)
  | zoneMapScan (s : ZoneMapScanExec)
  | filter (predicate : PhysicalExpr) (child : ExecutionPlan)
  | project (projections : List PhysicalExpr) (child : ExecutionPlan)
  | limit (limit emitted : Nat) (child : ExecutionPlan)
  | hashAggregate (s : AggregateExec) (child : ExecutionPlan)

namespace ExecutionPlan

/-- `next_batch`, turn by turn. -/
def act (lz4 : Lz4) : ExecutionPlan → Act PartDir ExecutionPlan BatchResult
  | fullScan s => (s.act lz4).map (Turn.map fullScan)
  | zoneMapScan s => (s.act lz4).map (Turn.map zoneMapScan)
  | filter predicate child =>
      (filterExec predicate).onTop (act lz4 child) (fun _ c => filter predicate c) () child
  | project projections child =>
      (projectExec projections).onTop (act lz4 child) (fun _ c => project projections c) () child
  | limit n emitted child =>
      (limitExec n).onTop (act lz4 child) (fun emitted c => limit n emitted c) emitted child
  | hashAggregate s child =>
      hashAggregateExec.onTop (act lz4 child) (fun s c => hashAggregate s c) s child

end ExecutionPlan

end TinyOlap.Execution
