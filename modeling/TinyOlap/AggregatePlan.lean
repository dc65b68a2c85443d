import TinyOlap.Execution.Aggregation.AggregateTree
import TinyOlap.WherePlan

/-!
# Plans of queries with aggregation

The SELECT list of such a query has GROUP BY columns and aggregates of columns, in any order.
It becomes a projection over an aggregation, whose columns are the GROUP BY columns and then the
aggregates in the order of the SELECT list; both name their columns, an aggregate by the name of
its output. The final aggregation is built from the same clauses.
-/

set_option autoImplicit false

namespace TinyOlap

open Library Library.WorkPool Catalog Arrow Storage Frontend Physical Execution

variable {schema : TableSchema}

/-! ## Aggregates -/

/-- The aggregate that is built for a function and the type of its column. -/
def aggregateOf (func : Logical.AggFunc) (t : NumericType) (columnName : String) : Aggregate :=
  match func, t with
  | .count, _ => .count columnName
  | .avg, _ => .avg columnName
  | .sum, .int t => .sum t columnName
  | .sum, .f32 => .float .sum false columnName
  | .sum, .f64 => .float .sum true columnName
  | .min, .int t => .min t columnName
  | .min, .f32 => .float .min false columnName
  | .min, .f64 => .float .min true columnName
  | .max, .int t => .max t columnName
  | .max, .f32 => .float .max false columnName
  | .max, .f64 => .float .max true columnName

theorem columnName_aggregateOf (func : Logical.AggFunc) (t : NumericType) (columnName : String) :
    (aggregateOf func t columnName).columnName = columnName := by
  cases func <;> cases t <;> rfl

theorem outputName_aggregateOf (func : Logical.AggFunc) (t : NumericType) (columnName : String) :
    (aggregateOf func t columnName).outputName = aggFuncName func ++ "(" ++ columnName ++ ")" := by
  cases func <;> cases t <;> rfl

theorem dataType_of_numericType {dataType : DataType} {t : NumericType}
    (numeric : numericType dataType = some t) : t.dataType = dataType := by
  unfold numericType at numeric
  split at numeric <;> cases numeric <;> rfl

/-- A call of an aggregate function for a column of numbers. -/
structure AggregateCall (schema : TableSchema) where
  name : String
  func : Logical.AggFunc
  named : Logical.aggFunc name = .ok func
  ref : ColumnRef schema
  type : NumericType
  numeric : numericType ref.column.dataType = some type

namespace AggregateCall

def toExpr (call : AggregateCall schema) : Expr :=
  .function call.name (.list false [.unnamed call.ref.toExpr]) none false []

def toLogical (call : AggregateCall schema) : Logical.LogicalExpr :=
  .aggregate call.func (.column schema.name call.ref.column.name)

/-- The aggregate of the call. -/
def aggregate (call : AggregateCall schema) : Aggregate :=
  aggregateOf call.func call.type call.ref.column.name

def toSpec (call : AggregateCall schema) : AggSpec :=
  ⟨lowerAggFunc call.func, .column call.ref.column.name, call.aggregate.outputName⟩

theorem lower_toExpr (call : AggregateCall schema) :
    Logical.lowerExpr schema call.toExpr = .ok call.toLogical := by
  rw [toExpr, Logical.lowerExpr, call.named, Outcome.ok_bind, Logical.lowerArguments,
    Logical.lowerFirst, Logical.lowerArg, call.ref.lower_toExpr]
  rfl

theorem lowerExpr_toLogical (call : AggregateCall schema) :
    lowerExpr call.toLogical = .ok (.column call.aggregate.outputName) := by
  rw [aggregate, outputName_aggregateOf]
  rfl

theorem lowerAggSpec_toLogical (call : AggregateCall schema) :
    lowerAggSpec call.toLogical = .ok call.toSpec := by
  rw [toSpec, aggregate, outputName_aggregateOf]
  rfl

/-- **The accumulator of a call**, in either phase. -/
theorem buildAccumulator_toSpec (call : AggregateCall schema) (isPartial : Bool) :
    buildAccumulator schema isPartial call.toSpec =
      .ok (call.aggregate.accumulator isPartial) := by
  have typed : ∀ (function : String) (make : NumericType → Accumulator),
      buildTyped schema call.ref.column.name function make = .ok (make call.type) := by
    intro function make
    rw [buildTyped, call.ref.found, Outcome.ofOption, Outcome.ok_bind, call.numeric]
    rfl
  obtain ⟨name, func, named, ref, type, numeric⟩ := call
  cases func with
  | count => rfl
  | avg => rfl
  | sum => exact (typed _ _).trans (by cases type <;> rfl)
  | min => exact (typed _ _).trans (by cases type <;> rfl)
  | max => exact (typed _ _).trans (by cases type <;> rfl)

end AggregateCall

/-! ## Queries -/

/-- An item of the SELECT list, which may get another name. -/
inductive AggregateItem (schema : TableSchema) where
  | group (ref : ColumnRef schema) (aliasName : Option String)
  | call (call : AggregateCall schema) (aliasName : Option String)

namespace AggregateItem

def toExpr : AggregateItem schema → Expr
  | group ref _ => ref.toExpr
  | call c _ => c.toExpr

def aliasName : AggregateItem schema → Option String
  | group _ aliasName | call _ aliasName => aliasName

def toItem (item : AggregateItem schema) : SelectItem :=
  match item.aliasName with
  | none => .unnamedExpr item.toExpr
  | some aliasName => .exprWithAlias item.toExpr aliasName

def toLogical : AggregateItem schema → Logical.LogicalExpr
  | group ref _ => .column schema.name ref.column.name
  | call c _ => c.toLogical

/-- The name of the item's column. -/
def label : AggregateItem schema → String
  | group ref _ => ref.column.name
  | call c _ => c.aggregate.outputName

/-- The item's column, with its type. -/
def field : AggregateItem schema → Field
  | group ref _ => Field.ofColumn ref.column
  | call c _ => (c.aggregate.accumulator false).outputField

def call? : AggregateItem schema → Option (AggregateCall schema)
  | group .. => none
  | call c _ => some c

theorem name_field (item : AggregateItem schema) : item.field.name = item.label := by
  cases item with
  | group ref aliasName => rfl
  | call c aliasName => exact c.aggregate.outputName_eq false

theorem lower_toExpr (item : AggregateItem schema) :
    Logical.lowerExpr schema item.toExpr = .ok item.toLogical := by
  cases item with
  | group ref aliasName => exact ref.lower_toExpr
  | call c aliasName => exact c.lower_toExpr

theorem lowerSelectItem_toItem (item : AggregateItem schema) :
    Logical.lowerSelectItem schema item.toItem = .ok [item.toLogical] := by
  rw [toItem]
  split
  · rw [Logical.lowerSelectItem, item.lower_toExpr]
    rfl
  · rw [Logical.lowerSelectItem, item.lower_toExpr]
    rfl

/-- Only calls are aggregates. -/
theorem aggregateItem_toItem (item : AggregateItem schema) :
    Logical.aggregateItem item.toItem = item.call?.map AggregateCall.toExpr := by
  cases item with
  | group ref aliasName =>
      cases aliasName with
      | none =>
          simp only [toItem, AggregateItem.aliasName, toExpr, ColumnRef.toExpr]
          split <;> rfl
      | some aliasName =>
          simp only [toItem, AggregateItem.aliasName, toExpr, ColumnRef.toExpr]
          split <;> rfl
  | call c aliasName => cases aliasName <;> rfl

theorem lowerExpr_toLogical (item : AggregateItem schema) :
    lowerExpr item.toLogical = .ok (.column item.label) := by
  cases item with
  | group ref aliasName => rfl
  | call c aliasName => exact c.lowerExpr_toLogical

theorem foldExpr_toLogical (item : AggregateItem schema) :
    Logical.foldExpr item.toLogical = item.toLogical := by
  cases item <;> rfl

end AggregateItem

/-- **A query with aggregation**: items, GROUP BY and WHERE. A column that is selected is a
GROUP BY column, and there is something to group by or to aggregate. -/
structure AggregateQuery (schema : TableSchema) where
  items : List (AggregateItem schema)
  groupBy : List (ColumnRef schema)
  selection : Option (WherePredicate schema)
  grouped : ∀ ref aliasName, .group ref aliasName ∈ items →
    ref.column ∈ groupBy.map ColumnRef.column
  nonempty : groupBy ≠ [] ∨ items.filterMap AggregateItem.call? ≠ []

namespace AggregateQuery

variable (q : AggregateQuery schema)

/-- The calls of the SELECT list, in its order. -/
def calls : List (AggregateCall schema) := q.items.filterMap AggregateItem.call?

def aggregates : List Aggregate := q.calls.map AggregateCall.aggregate

/-- The names of the GROUP BY columns. -/
def groupNames : List String := q.groupBy.map fun ref => ref.column.name

def groupByFields : List Field := q.groupBy.map fun ref => Field.ofColumn ref.column

def labels : List String := q.items.map AggregateItem.label

/-- The query is written so, without a LIMIT, in the clauses that are lowered. What stands in the
others makes no difference. -/
structure WrittenAs (query : Query) : Prop where
  body : ∃ select modifiers, query.body = .select select ∧
    select.projection = q.items.map AggregateItem.toItem ∧
    select.selection = q.selection.map WherePredicate.toExpr ∧
    select.groupBy = .expressions (q.groupBy.map ColumnRef.toExpr) modifiers
  limit : query.limitClause = none

/-! ## Plans -/

/-- The logical plan of a query with aggregation. -/
def toLogical : Logical.LogicalPlan :=
  .project (q.items.map AggregateItem.toLogical)
    (.aggregate (q.groupNames.map fun name => .column schema.name name)
      (q.calls.map AggregateCall.toLogical)
      (logicalInput (q.selection.map WherePredicate.toLogical) schema))

/-- The physical plan of a query with aggregation. -/
def toPhysical (columns : List String) (predicate : Option PhysicalExpr) : PhysicalPlan :=
  .project (q.labels.map .column)
    (.aggregate (q.groupNames.map .column) (q.calls.map AggregateCall.toSpec)
      (physicalInput schema.name columns predicate))

theorem lowerProjection_items :
    Logical.lowerProjection (q.items.map AggregateItem.toItem) schema =
      .ok (q.items.map AggregateItem.toLogical) := by
  have each : (q.items.map AggregateItem.toItem).mapM (Logical.lowerSelectItem schema) =
      .ok (q.items.map fun item => [item.toLogical]) := by
    rw [List.mapM_map]
    exact Outcome.mapM_ok fun item _ => item.lowerSelectItem_toItem
  rw [Logical.lowerProjection, each, Outcome.map_ok, ← List.flatMap_def]
  exact congrArg Outcome.ok (List.flatMap_pure_eq_map _ _)

theorem collectAggregates_items :
    Logical.collectAggregates (q.items.map AggregateItem.toItem) schema =
      .ok (q.calls.map AggregateCall.toLogical) := by
  have found : (q.items.map AggregateItem.toItem).filterMap Logical.aggregateItem =
      q.calls.map AggregateCall.toExpr := by
    rw [List.filterMap_map, calls, List.map_filterMap]
    exact List.filterMap_congr fun item _ => item.aggregateItem_toItem
  rw [Logical.collectAggregates, found, List.mapM_map]
  exact Outcome.mapM_ok fun call _ => call.lower_toExpr

theorem lowerGroupBy_groupBy (modifiers : List String) :
    Logical.lowerGroupBy (.expressions (q.groupBy.map ColumnRef.toExpr) modifiers) schema =
      .ok (q.groupNames.map fun name => .column schema.name name) := by
  rw [Logical.lowerGroupBy, List.mapM_map, groupNames, List.map_map]
  exact Outcome.mapM_ok fun ref _ => ref.lower_toExpr

theorem not_isEmpty :
    ¬ (((q.groupNames.map fun name => Logical.LogicalExpr.column schema.name name).isEmpty &&
      (q.calls.map AggregateCall.toLogical).isEmpty) = true) := by
  rw [Bool.and_eq_true, List.isEmpty_iff, List.isEmpty_iff, groupNames, List.map_eq_nil_iff,
    List.map_eq_nil_iff, List.map_eq_nil_iff, calls]
  exact fun both => q.nonempty.elim (· both.1) (· both.2)

theorem lower_query {query : Query} (written : q.WrittenAs query) :
    Logical.lower (.query query) schema = .ok q.toLogical := by
  obtain ⟨⟨select, modifiers, body, projection, selection, groupBy⟩, limit⟩ := written
  have projected := q.lowerProjection_items
  have aggregated := q.collectAggregates_items
  have grouped := q.lowerGroupBy_groupBy modifiers
  rw [Logical.lower, Logical.lowerQuery, body]
  cases selected : q.selection with
  | none =>
      rw [selected, Option.map_none] at selection
      simp only [projection, selection, groupBy, limit, projected, aggregated, grouped,
        Outcome.ok_bind, if_neg q.not_isEmpty, toLogical, selected]
      rfl
  | some w =>
      rw [selected, Option.map_some] at selection
      simp only [projection, selection, groupBy, limit, projected, aggregated, grouped,
        w.lower_toExpr, Outcome.ok_bind, if_neg q.not_isEmpty, toLogical, selected]
      rfl

/-- The logical plan after the optimizer, on top of an optimized scan. -/
def optimized (input : Logical.LogicalPlan) : Logical.LogicalPlan :=
  .project (q.items.map AggregateItem.toLogical)
    (.aggregate (q.groupNames.map fun name => .column schema.name name)
      (q.calls.map AggregateCall.toLogical) input)

theorem optimize_toLogical {input : Logical.LogicalPlan}
    (scan : Logical.optimize schema (logicalInput (q.selection.map WherePredicate.toLogical)
      schema) = .ok input) :
    Logical.optimize schema q.toLogical = .ok (q.optimized input) := by
  have folded : (q.items.map AggregateItem.toLogical).map Logical.foldExpr =
      q.items.map AggregateItem.toLogical := by
    rw [List.map_map]
    exact List.map_congr_left fun item _ => item.foldExpr_toLogical
  rw [toLogical, Logical.optimize_project, Logical.optimize_aggregate, scan, folded]
  rfl

/-- The columns that the scan of the query reads. -/
def columnNames (input : Logical.LogicalPlan) : List String :=
  orderedSet (collectColumns (q.optimized input))

theorem lowerPlan_optimized {cols : List String} {input : Logical.LogicalPlan}
    {plan : PhysicalPlan} (scan : lowerPlan cols input = .ok plan) :
    lowerPlan cols (q.optimized input) =
      .ok (.project (q.labels.map .column)
        (.aggregate (q.groupNames.map .column) (q.calls.map AggregateCall.toSpec) plan)) := by
  have projections : (q.items.map AggregateItem.toLogical).mapM lowerExpr =
      .ok (q.labels.map PhysicalExpr.column) := by
    rw [List.mapM_map, labels, List.map_map]
    exact Outcome.mapM_ok fun item _ => item.lowerExpr_toLogical
  have aggregates : (q.calls.map AggregateCall.toLogical).mapM lowerAggSpec =
      .ok (q.calls.map AggregateCall.toSpec) := by
    rw [List.mapM_map]
    exact Outcome.mapM_ok fun call _ => call.lowerAggSpec_toLogical
  rw [optimized, lowerPlan, projections, Outcome.ok_bind, lowerPlan, mapM_lowerExpr_columns,
    Outcome.ok_bind, aggregates, Outcome.ok_bind, scan]
  rfl

/-- **The plan of a query with aggregation.** -/
theorem exists_plan : ∃ input p, InputPlan q.selection input p ∧
    planLogical schema q.toLogical = .ok (q.toPhysical (q.columnNames input) p) := by
  obtain ⟨input, p, scan, plan⟩ := exists_inputPlan q.selection
  obtain ⟨lowered, made, optimizes⟩ := plan.lowered (q.columnNames input)
  refine ⟨input, p, plan, ?_⟩
  rw [planLogical, q.optimize_toLogical scan, Outcome.ok_bind, Physical.lower]
  rw [columnNames] at made optimizes ⊢
  rw [q.lowerPlan_optimized made, Outcome.ok_bind, toPhysical, ← optimizes]
  rfl

/-! ## Operators -/

theorem mem_columnNames {input : Logical.LogicalPlan} {name : String} :
    name ∈ q.columnNames input ↔ name ∈ q.groupNames ∨
      (∃ call ∈ q.calls, call.ref.column.name = name) ∨ name ∈ collectColumns input := by
  have items : ∀ item ∈ q.items, name ∈ collectExprColumns item.toLogical →
      name ∈ q.groupNames ∨ ∃ call ∈ q.calls, call.ref.column.name = name := by
    intro item member inside
    cases item with
    | group ref aliasName =>
        obtain ⟨other, here, same⟩ := List.mem_map.mp (q.grouped ref aliasName member)
        cases List.mem_singleton.mp inside
        exact .inl (List.mem_map.mpr ⟨other, here, congrArg ColumnSchema.name same⟩)
    | call c aliasName =>
        cases List.mem_singleton.mp inside
        exact .inr ⟨c, List.mem_filterMap.mpr ⟨_, member, rfl⟩, rfl⟩
  rw [columnNames, mem_orderedSet, optimized, collectColumns, collectColumns, List.flatMap_append]
  simp only [List.mem_append, List.flatMap_map, List.mem_flatMap]
  constructor
  · rintro (⟨item, member, inside⟩ | (⟨named, member, inside⟩ | ⟨call, member, inside⟩) | below)
    · exact (items item member inside).imp_right .inl
    · cases List.mem_singleton.mp inside
      exact .inl member
    · cases List.mem_singleton.mp inside
      exact .inr (.inl ⟨call, member, rfl⟩)
    · exact .inr (.inr below)
  · rintro (grouped | ⟨call, member, rfl⟩ | below)
    · exact .inr (.inl (.inl ⟨name, grouped, List.mem_singleton_self name⟩))
    · exact .inr (.inl (.inr ⟨call, member, List.mem_singleton_self _⟩))
    · exact .inr (.inr below)

/-- All columns that the scan reads are in the schema. -/
theorem known_columnNames {input : Logical.LogicalPlan} {p : Option PhysicalExpr}
    (plan : InputPlan q.selection input p) {name : String}
    (member : name ∈ q.columnNames input) : ∃ c, schema.find name = some c ∧ c.name = name := by
  rcases q.mem_columnNames.mp member with grouped | ⟨call, _, rfl⟩ | below
  · obtain ⟨ref, _, rfl⟩ := List.mem_map.mp grouped
    exact ⟨ref.column, ref.found, rfl⟩
  · exact ⟨call.ref.column, call.ref.found, rfl⟩
  · exact plan.known name below

theorem columnNames_ne_nil {input : Logical.LogicalPlan} : q.columnNames input ≠ [] := by
  rcases q.nonempty with groups | calls
  · obtain ⟨ref, member⟩ := List.exists_mem_of_ne_nil _ groups
    exact List.ne_nil_of_mem (q.mem_columnNames.mpr (.inl (List.mem_map_of_mem member)))
  · obtain ⟨call, member⟩ := List.exists_mem_of_ne_nil _ calls
    exact List.ne_nil_of_mem (q.mem_columnNames.mpr (.inr (.inl ⟨call, member, rfl⟩)))

theorem buildAccumulators_calls (isPartial : Bool) :
    buildAccumulators (q.calls.map AggregateCall.toSpec) schema isPartial =
      .ok (q.aggregates.map (Aggregate.accumulator isPartial)) := by
  rw [buildAccumulators, List.mapM_map, aggregates, List.map_map]
  exact Outcome.mapM_ok fun call _ => call.buildAccumulator_toSpec isPartial

theorem buildGroupByFields_groupNames :
    buildGroupByFields (q.groupNames.map .column) schema = .ok q.groupByFields := by
  rw [buildGroupByFields, List.mapM_map, groupNames, List.mapM_map, groupByFields]
  refine Outcome.mapM_ok fun ref _ => ?_
  simp only [Function.comp_apply, ref.found, Outcome.ofOption, Outcome.ok_bind]
  rfl

/-- **A query with aggregation is built**: a tree that reads the columns it needs, with a final
aggregation for the same clauses. -/
theorem exists_built {input : Logical.LogicalPlan} {p : Option PhysicalExpr}
    (plan : InputPlan q.selection input p) :
    ∃ columns, columns.map ColumnSchema.name = q.columnNames input ∧
      (∀ c ∈ columns, c ∈ schema.columns) ∧
      ∀ tableDir, build (q.toPhysical (q.columnNames input) p) schema tableDir =
        .ok ⟨listParts tableDir, aggregateTree columns p q.aggregates q.groupByFields q.labels,
          some (AggregateExec.mergeStart q.aggregates q.groupByFields)⟩ := by
  obtain ⟨columns, scanned, names, known⟩ :=
    scanColumns_eq fun _ member => q.known_columnNames plan member
  refine ⟨columns, names, known, fun tableDir => ?_⟩
  have scan : buildInner schema (physicalInput schema.name (q.columnNames input) p) =
      .ok (filterTree columns p) := by
    cases p with
    | none =>
        rw [physicalInput, buildInner, constructFullScanOperator, scanned]
        rfl
    | some p =>
        rw [physicalInput, buildInner, buildInner, constructZoneMapScanOperator, scanned]
        rfl
  have below : buildInner schema (q.toPhysical (q.columnNames input) p) =
      .ok (aggregateTree columns p q.aggregates q.groupByFields q.labels) := by
    rw [toPhysical, buildInner, buildInner, q.buildAccumulators_calls, Outcome.ok_bind, scan,
      Outcome.ok_bind, q.buildGroupByFields_groupNames]
    rfl
  rw [build, below, Outcome.ok_bind, toPhysical, findAggregate, findAggregate]
  simp only [q.buildAccumulators_calls, q.buildGroupByFields_groupNames, Outcome.ok_bind]

theorem exists_root {query : Query} (written : q.WrittenAs query) :
    ∃ input p columns, InputPlan q.selection input p ∧
      columns.map ColumnSchema.name = q.columnNames input ∧
      (∀ c ∈ columns, c ∈ schema.columns) ∧
      ∀ tableDir, runSelect (.query query) schema tableDir =
        .ok ⟨listParts tableDir, aggregateTree columns p q.aggregates q.groupByFields q.labels,
          some (AggregateExec.mergeStart q.aggregates q.groupByFields)⟩ := by
  obtain ⟨input, p, plan, planned⟩ := q.exists_plan
  obtain ⟨columns, names, known, built⟩ := q.exists_built plan
  refine ⟨input, p, columns, plan, names, known, fun tableDir => ?_⟩
  rw [runSelect, planSelect_of_lower (q.lower_query written), planned, Outcome.ok_bind, built]
  rfl

end AggregateQuery

end TinyOlap
