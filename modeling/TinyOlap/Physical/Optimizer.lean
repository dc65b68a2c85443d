import TinyOlap.Physical.Operators

/-!
# The physical optimizer

Filters that are always true are removed, and a filter on a full scan turns the scan into
one that skips parts by their zone maps. The filter stays, for skipping is only coarse.
-/

set_option autoImplicit false

namespace TinyOlap.Physical

structure OptimizerRule where
  name : String
  apply : PhysicalPlan → PhysicalPlan

/-- Apply a function to every node, to the children before the parent. -/
def rewrite (plan : PhysicalPlan) (f : PhysicalPlan → PhysicalPlan) : PhysicalPlan :=
  match plan with
  | .filter predicate input => f (.filter predicate (rewrite input f))
  | .project projections input => f (.project projections (rewrite input f))
  | .aggregate groupBy aggregates input => f (.aggregate groupBy aggregates (rewrite input f))
  | .limit limit input => f (.limit limit (rewrite input f))
  | leaf => f leaf

/-- Choose which scan operator to use, based on the predicate. -/
def predicatePushdown : OptimizerRule where
  name := "predicate_pushdown"
  apply plan := rewrite plan fun
    | .filter predicate (.fullScan table columns) =>
        .filter predicate (.zoneMapScan table columns predicate)
    | other => other

def eliminateTrueFilter : OptimizerRule where
  name := "eliminate_true_filter"
  apply plan := rewrite plan fun
    | .filter (.literal (.value .bool true)) input => input
    | other => other

def rules : List OptimizerRule := [eliminateTrueFilter, predicatePushdown]

/-- `Optimizer::optimize`. -/
def optimize (plan : PhysicalPlan) : PhysicalPlan :=
  rules.foldl (fun plan rule => rule.apply plan) plan

end TinyOlap.Physical
