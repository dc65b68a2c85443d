import Mathlib.Data.List.Sort
import TinyOlap.Execution.Plan

/-!
# From physical plans to operators

A physical plan becomes an operator tree; every worker gets a copy of it. All copies ask
the same work source for parts and send their batches over one channel, and if the plan
aggregates, the partial results are merged behind the channel.
-/

set_option autoImplicit false

namespace TinyOlap.Execution

open Library Library.WorkPool Catalog Arrow Storage Physical

/-! ## Operators of a worker -/

/-- The columns a scan reads, with their types. -/
def scanColumns (schema : TableSchema) (columns : List String) : ExecResult (List ColumnSchema) :=
  columns.mapM fun name => .ofOption (.invalidData ("unknown column: " ++ name)) (schema.find name)

def constructFullScanOperator (schema : TableSchema) (columns : List String) :
    ExecResult ExecutionPlan := do
  let columns ← scanColumns schema columns
  .ok (.fullScan (.new columns (columns.map Field.ofColumn)))

def constructZoneMapScanOperator (schema : TableSchema) (columns : List String)
    (predicate : PhysicalExpr) : ExecResult ExecutionPlan := do
  let columns ← scanColumns schema columns
  .ok (.zoneMapScan (.new columns (columns.map Field.ofColumn) predicate))

/-- The type of an accumulator's values, if the column's type is numeric. -/
def numericType : DataType → Option NumericType
  | .int t => some (.int t)
  | .f32 => some .f32
  | .f64 => some .f64
  | .bool | .str => none

/-- The accumulators that are built for the type of their column. -/
def buildTyped (schema : TableSchema) (columnName function : String)
    (make : NumericType → Accumulator) : ExecResult Accumulator := do
  let colSchema ← .ofOption (.invalidData ("column '" ++ columnName ++ "' not found in schema"))
    (schema.find columnName)
  let t ← .ofOption (.invalidData (function ++ " not supported on " ++ typeText colSchema.dataType))
    (numericType colSchema.dataType)
  .ok (make t)

def buildAccumulator (schema : TableSchema) (isPartial : Bool) (spec : AggSpec) :
    ExecResult Accumulator :=
  match spec.arg with
  | .column columnName =>
      match spec.func with
      | .sum => buildTyped schema columnName "SUM" fun t => .sum t columnName []
      | .count => .ok (.count columnName [])
      | .min => buildTyped schema columnName "MIN" fun t => .min t columnName ⟨[], []⟩
      | .max => buildTyped schema columnName "MAX" fun t => .max t columnName ⟨[], []⟩
      | .avg => .ok (.avg columnName [] isPartial)
  | _ => .err (.invalidData "Aggregate argument must be a column reference")

def buildAccumulators (aggregates : List AggSpec) (schema : TableSchema) (isPartial : Bool) :
    ExecResult (List Accumulator) :=
  aggregates.mapM (buildAccumulator schema isPartial)

def buildGroupByFields (groupBy : List PhysicalExpr) (schema : TableSchema) :
    ExecResult (List Field) :=
  groupBy.mapM fun
    | .column name => do
        let colSchema ← .ofOption
          (.invalidData ("GROUP BY column '" ++ name ++ "' not found in schema")) (schema.find name)
        .ok ⟨name, toArrow colSchema.dataType⟩
    | _ => .err (.invalidData "GROUP BY argument must be a column reference")

/-- The tree of one worker. -/
def buildInner (schema : TableSchema) : PhysicalPlan → ExecResult ExecutionPlan
  | .fullScan _ columns => constructFullScanOperator schema columns
  | .zoneMapScan _ columns predicate => constructZoneMapScanOperator schema columns predicate
  | .filter predicate input => do
      let child ← buildInner schema input
      .ok (.filter predicate child)
  | .project projections input => do
      let child ← buildInner schema input
      .ok (.project projections child)
  | .limit limit input => do
      let child ← buildInner schema input
      .ok (.limit limit 0 child)
  | .aggregate groupBy aggregates input => do
      let accumulators ← buildAccumulators aggregates schema true
      let child ← buildInner schema input
      let groupByFields ← buildGroupByFields groupBy schema
      .ok (.hashAggregate (HashAggregateExec.new accumulators groupByFields) child)

def findAggregate : PhysicalPlan → Option (List PhysicalExpr × List AggSpec)
  | .aggregate groupBy aggregates _ => some (groupBy, aggregates)
  | .filter _ input | .project _ input | .limit _ input => findAggregate input
  | .fullScan .. | .zoneMapScan .. => none

/-! ## The parts of a table -/

/-- The directories that a query has found in the table directory, with their names. -/
abbrev PartList : Type := List (String × PartDir)

/-- The parts in the order in which they are handed out: by name, the last one first. -/
def listParts (tableDir : PartList) : List PartDir :=
  ((tableDir.mergeSort fun a b => decide (a.1 ≤ b.1)).map Prod.snd).reverse

theorem listParts_perm (tableDir : PartList) :
    (listParts tableDir).Perm (tableDir.map Prod.snd) :=
  (List.reverse_perm _).trans ((List.mergeSort_perm _ _).map _)

/-- The part that was written last is handed out first. -/
theorem listParts_two (first second : PartDir) :
    listParts [(partName 0, first), (partName 1, second)] = [second, first] := by
  have sorted : [(partName 0, first), (partName 1, second)].Pairwise fun a b =>
      decide (a.1 ≤ b.1) = true := by
    have names : partName 0 ≤ partName 1 := by decide
    simp [names]
  rw [listParts, List.mergeSort_of_pairwise sorted]
  rfl

/-! ## The whole query -/

/-- The root of a query: what the workers share, the tree each of them runs, and the
final aggregation. -/
structure RootExec where
  parts : List PartDir
  child : ExecutionPlan
  merge : Option AggregateExec

def build (plan : PhysicalPlan) (schema : TableSchema) (tableDir : PartList) :
    ExecResult RootExec := do
  let parts := listParts tableDir
  let child ← buildInner schema plan
  let merge ← match findAggregate plan with
    | some (groupBy, aggregates) => do
        let accumulators ← buildAccumulators aggregates schema false
        let groupByFields ← buildGroupByFields groupBy schema
        .ok (some (MergeAggregateExec.new accumulators groupByFields))
    | none => .ok none
  .ok ⟨parts, child, merge⟩

/-- The capacity of the channel. -/
def channelBound : Nat := 128

/-- The workers under a gather, at the start. -/
abbrev GatherExec : Type := Pool PartDir ExecutionPlan BatchResult

/-- Without a worker there is no first child to display, which is a panic. -/
def GatherExec.new (parts : List PartDir) (nInputs : Nat) (child : ExecutionPlan) :
    ExecResult GatherExec :=
  if nInputs = 0 then .panic else .ok (.init parts nInputs child)

/-- What the workers and the consumer can do, event by event. -/
abbrev GatherExec.run (lz4 : Lz4) (g : GatherExec) (events : List Event) : Option GatherExec :=
  WorkPool.run (ExecutionPlan.act lz4) channelBound g events

/-- What `next_batch` of the gather has returned so far. -/
def GatherExec.returned (g : GatherExec) : List BatchResult := g.received.map Prod.snd

namespace RootExec

/-- The loop that collects all batches, up to the first error. -/
def collectBatches (results : List BatchResult) : ExecResult (List RecordBatch) :=
  results.mapM (.ofExcept id)

/-- What the query returns once the gather has returned some results, and none if it has
ended. Before the end that is a result only if there was an error. -/
def returned (root : RootExec) (g : GatherExec) : Option (ExecResult (List RecordBatch)) :=
  match root.merge with
  | none =>
      match collectBatches g.returned with
      | .ok batches => if g.hungUp then some (.ok batches) else none
      | result => some result
  | some merge =>
      match merge.consume g.returned with
      | .ok merge =>
          if g.hungUp then some (merge.finish.1 >>= fun batch => .ok [batch]) else none
      | .err e => some (.err e)
      | .panic => some .panic

end RootExec

end TinyOlap.Execution
