import TinyOlap.OrdinarySelect
import TinyOlap.RowPlan

/-!
# Plans of ordinary queries

The plan of an ordinary query scans the columns that it names, and with them the columns that its
clauses read: the filter compares nothing with NULL, the aggregation finds its columns in the
scan, and the final aggregation finds its own in the projection, for they are selected. So the
tree is sound, and the root can merge whatever the workers return.
-/

set_option autoImplicit false

namespace TinyOlap.Physical

open Library Catalog Frontend Execution
open Logical (LogicalExpr LogicalPlan IsOutput OrdinaryClauses LoweredSelect)

/-! ## Physical expressions -/

theorem namesNull_lowerExpr {e : LogicalExpr} {p : PhysicalExpr} (lowered : lowerExpr e = .ok p)
    (clear : Logical.namesNull e = false) : namesNull p = false := by
  induction e generalizing p with
  | column table col =>
      cases lowered
      rfl
  | literal lit =>
      cases lowered
      cases lit with
      | null => cases clear
      | _ => rfl
  | aggregate func arg _ =>
      cases lowered
      rfl
  | binaryOp left op right ihLeft ihRight =>
      obtain ⟨clearLeft, clearRight⟩ := Bool.or_eq_false_iff.mp clear
      obtain ⟨left', first, lowered⟩ := Outcome.bind_eq_ok.mp lowered
      obtain ⟨right', second, lowered⟩ := Outcome.bind_eq_ok.mp lowered
      cases lowered
      cases op <;> simp [lowerOp, namesNull, ihLeft first clearLeft, ihRight second clearRight]
  | cast expr target _ =>
      cases expr with
      | literal lit =>
          obtain ⟨narrow, made, lowered⟩ := Outcome.bind_eq_ok.mp lowered
          cases lowered
          cases narrow with
          | value t v => rfl
          | null =>
              unfold narrowLiteral at made
              split at made
              · obtain ⟨n, _, made⟩ := Outcome.bind_eq_ok.mp made
                cases made
              all_goals cases made
      | _ => cases lowered

/-- The name of an item of the SELECT list. -/
def outputLabel : LogicalExpr → String
  | .column _ name => name
  | .aggregate func arg => aggFuncName func ++ "(" ++ exprDisplay arg ++ ")"
  | .literal _ | .binaryOp .. | .cast .. => ""

theorem lowerExpr_of_isOutput {l : LogicalExpr} (output : IsOutput l) :
    lowerExpr l = .ok (.column (outputLabel l)) := by
  rcases output with ⟨table, name, rfl⟩ | ⟨func, table, name, rfl⟩
  · rfl
  · rfl

theorem foldExpr_of_isOutput {l : LogicalExpr} (output : IsOutput l) : Logical.foldExpr l = l := by
  rcases output with ⟨table, name, rfl⟩ | ⟨func, table, name, rfl⟩
  · rfl
  · rfl

/-- The specification of an aggregate of a column. -/
def columnSpec (func : AggFunc) (name : String) : AggSpec :=
  ⟨func, .column name, Aggregate.nameOf name func⟩

theorem lowerAggSpec_column (func : Logical.AggFunc) (table name : String) :
    lowerAggSpec (.aggregate func (.column table name)) =
      .ok (columnSpec (lowerAggFunc func) name) := by
  cases func <;> rfl

theorem outputLabel_aggregate (func : Logical.AggFunc) (table name : String) :
    outputLabel (.aggregate func (.column table name)) =
      Aggregate.nameOf name (lowerAggFunc func) := by
  cases func <;> rfl

/-! ## Physical plans -/

/-- A scan of the columns, below filters without NULL. -/
def ScansRows (columns : List String) : PhysicalPlan → Prop
  | .fullScan _ names | .zoneMapScan _ names _ => names = columns
  | .filter predicate input => namesNull predicate = false ∧ ScansRows columns input
  | .project .. | .aggregate .. | .limit .. => False

/-- A projection, over an aggregation if there is something to group by or to aggregate. -/
def ordinaryPlan (labels groups : List String) (specs : List AggSpec) (rows : PhysicalPlan) :
    PhysicalPlan :=
  .project (labels.map .column)
    (if groups.isEmpty && specs.isEmpty then rows else .aggregate (groups.map .column) specs rows)

/-- **The plan of an ordinary query**: what its clauses read is scanned, and what the final
aggregation reads is selected. -/
structure OrdinaryPlan (columns labels groups : List String) (specs : List AggSpec)
    (rows : PhysicalPlan) : Prop where
  scans : ScansRows columns rows
  some : columns ≠ []
  grouped : ∀ name ∈ groups, name ∈ columns ∧ name ∈ labels ∧
    ∀ func c, name ≠ Aggregate.nameOf c func
  calls : ∀ spec ∈ specs, ∃ func name, spec = columnSpec func name ∧ name ∈ columns ∧
    Aggregate.nameOf name func ∈ labels

/-- The optimizer leaves a scan below filters. -/
theorem scansRows_optimize {columns : List String} {schema : TableSchema} {input : LogicalPlan}
    {rows : PhysicalPlan}
    (shape : input = .scan schema.name ∨
      ∃ p, input = .filter p (.scan schema.name) ∧ Logical.namesNull p = false)
    (lowered : lowerPlan columns input = .ok rows) : ScansRows columns (optimize rows) := by
  rcases shape with rfl | ⟨p, rfl, clear⟩
  · cases lowered
    rfl
  · obtain ⟨predicate, lowersPredicate, lowered⟩ := Outcome.bind_eq_ok.mp lowered
    cases lowered
    have noNull := namesNull_lowerExpr lowersPredicate clear
    by_cases always : predicate = .literal (.value .bool true)
    · subst always
      rfl
    · have kept : eliminateTrueFilter.apply (.filter predicate (.fullScan schema.name columns)) =
          .filter predicate (.fullScan schema.name columns) := by
        simp only [eliminateTrueFilter, rewrite]
        split
        · rename_i same
          cases same
          exact (always rfl).elim
        · rfl
      have pushed : optimize (.filter predicate (.fullScan schema.name columns)) =
          .filter predicate (.zoneMapScan schema.name columns predicate) := by
        rw [optimize, rules, List.foldl_cons, kept]
        rfl
      rw [pushed]
      exact ⟨noNull, rfl⟩

theorem optimize_ordinaryPlan (labels groups : List String) (specs : List AggSpec)
    (rows : PhysicalPlan) :
    optimize (ordinaryPlan labels groups specs rows) =
      ordinaryPlan labels groups specs (optimize rows) := by
  rw [ordinaryPlan, ordinaryPlan]
  split
  · rfl
  · rfl

/-- The column that an item of the SELECT list reads. -/
theorem exists_column_of_isOutput {l : LogicalExpr} (output : IsOutput l) :
    ∃ name, collectExprColumns l = [name] := by
  rcases output with ⟨table, name, rfl⟩ | ⟨func, table, name, rfl⟩
  · exact ⟨name, rfl⟩
  · exact ⟨name, rfl⟩

section Planned

variable {schema : TableSchema} {selection : Option Expr} {input : LogicalPlan}
  {groups : List String} {aggregates projections : List LogicalExpr} {plan : PhysicalPlan}

/-- The plan below the projection. -/
def belowProjection (groupBy aggregates : List LogicalExpr) (input : LogicalPlan) : LogicalPlan :=
  if groupBy.isEmpty && aggregates.isEmpty then input else .aggregate groupBy aggregates input

theorem optimize_belowProjection {groupBy : List LogicalExpr} :
    Logical.optimize schema (belowProjection groupBy aggregates input) =
      belowProjection groupBy aggregates <$> Logical.optimize schema input := by
  rw [show belowProjection groupBy aggregates = fun input : LogicalPlan =>
    if groupBy.isEmpty && aggregates.isEmpty then input else .aggregate groupBy aggregates input
    from rfl]
  split
  · cases Logical.optimize schema input <;> rfl
  · exact Logical.optimize_aggregate schema groupBy aggregates input

/-- The aggregation has the same clauses in both plans. -/
theorem lowerPlan_belowProjection {columns : List String} {lowered : PhysicalPlan}
    (clauses : OrdinaryClauses groups aggregates projections)
    (lowers : lowerPlan columns (belowProjection (groups.map (.column schema.name)) aggregates
      input) = .ok lowered) :
    ∃ (specs : List AggSpec) (rows : PhysicalPlan),
      aggregates.mapM lowerAggSpec = .ok specs ∧ lowerPlan columns input = .ok rows ∧
      lowered = if groups.isEmpty && specs.isEmpty then rows
        else .aggregate (groups.map .column) specs rows := by
  obtain ⟨specs, specified⟩ := Outcome.mapM_isOk_iff.mpr fun l member => by
    obtain ⟨_, func, table, name, rfl⟩ := clauses.calls l member
    exact ⟨_, lowerAggSpec_column func table name⟩
  have none : ((groups.map (LogicalExpr.column schema.name)).isEmpty && aggregates.isEmpty) =
      (groups.isEmpty && specs.isEmpty) := by
    rw [List.isEmpty_map, isEmpty_of_forall₂ (Outcome.mapM_eq_ok specified)]
  rw [belowProjection, none] at lowers
  split at lowers
  · rename_i empty
    exact ⟨specs, lowered, specified, lowers, by rw [if_pos empty]⟩
  · rename_i some
    obtain ⟨_, grouped, lowers⟩ := Outcome.bind_eq_ok.mp lowers
    obtain ⟨_, specified', lowers⟩ := Outcome.bind_eq_ok.mp lowers
    obtain ⟨rows, scanned, lowers⟩ := Outcome.bind_eq_ok.mp lowers
    cases lowers
    cases specified'.symm.trans specified
    cases (mapM_lowerExpr_columns groups).symm.trans grouped
    exact ⟨specs, rows, specified, scanned, by rw [if_neg some]⟩

/-- **What planning makes of an ordinary query.** -/
theorem exists_ordinaryPlan (clauses : OrdinaryClauses groups aggregates projections)
    (filtered : Logical.lowerInput selection schema = .ok input)
    (clear : ∀ e ∈ selection, .value .null ∉ e.visited)
    (planned : planLogical schema (.project projections
      (belowProjection (groups.map (.column schema.name)) aggregates input)) = .ok plan) :
    ∃ columns labels specs rows, plan = ordinaryPlan labels groups specs rows ∧
      OrdinaryPlan columns labels groups specs rows := by
  obtain ⟨optimized, optimizes, planned⟩ := Outcome.bind_eq_ok.mp planned
  obtain ⟨lowered, lowers, same⟩ := Outcome.bind_eq_ok.mp planned
  cases same
  rw [Logical.optimize_project, optimize_belowProjection] at optimizes
  obtain ⟨below, made, rfl⟩ := Outcome.map_eq_ok.mp optimizes
  obtain ⟨input', scanned, rfl⟩ := Outcome.map_eq_ok.mp made
  have folded : projections.map Logical.foldExpr = projections :=
    (List.map_congr_left fun l member => foldExpr_of_isOutput (clauses.outputs l member)).trans
      (List.map_id _)
  rw [folded] at lowers
  obtain ⟨_, projected, lowers⟩ := Outcome.bind_eq_ok.mp lowers
  obtain ⟨inner, lowersBelow, same⟩ := Outcome.bind_eq_ok.mp lowers
  cases same
  have labelled : projections.mapM lowerExpr = .ok (projections.map fun l =>
      .column (outputLabel l)) :=
    Outcome.mapM_ok fun l member => lowerExpr_of_isOutput (clauses.outputs l member)
  cases labelled.symm.trans projected
  obtain ⟨specs, rows, specified, lowersInput, rfl⟩ :=
    lowerPlan_belowProjection clauses lowersBelow
  -- all columns that are grouped by or aggregated are in the projection
  have selected : ∀ l ∈ projections, ∀ name ∈ collectExprColumns l, name ∈ orderedSet
      (collectColumns (.project projections
        (belowProjection (groups.map (.column schema.name)) aggregates input'))) :=
    fun l member name inside => mem_orderedSet.mpr
      (List.mem_append_left _ (List.mem_flatMap.mpr ⟨l, member, inside⟩))
  refine ⟨_, projections.map outputLabel, specs, optimize rows, ?_,
    scansRows_optimize (Logical.optimize_input filtered clear scanned) lowersInput, ?_,
    fun name member => ?_, fun spec member => ?_⟩
  · rw [← optimize_ordinaryPlan, ordinaryPlan, List.map_map]
    rfl
  · obtain ⟨l, member⟩ := List.exists_mem_of_ne_nil _ clauses.selects
    obtain ⟨name, read⟩ := exists_column_of_isOutput (clauses.outputs l member)
    exact List.ne_nil_of_mem
      (selected l member name (by rw [read]; exact List.mem_singleton_self _))
  · obtain ⟨table, output⟩ := clauses.grouped name member
    exact ⟨selected _ output name (List.mem_singleton_self _),
      List.mem_map.mpr ⟨_, output, rfl⟩, clauses.clear name member⟩
  · obtain ⟨l, source, lowersSpec⟩ := exists_of_mem_right (Outcome.mapM_eq_ok specified) member
    obtain ⟨output, func, table, name, rfl⟩ := clauses.calls l source
    rw [lowerAggSpec_column] at lowersSpec
    cases lowersSpec
    exact ⟨lowerAggFunc func, name, rfl, selected _ output name (List.mem_singleton_self _),
      List.mem_map.mpr ⟨_, output, outputLabel_aggregate func table name⟩⟩

end Planned

end TinyOlap.Physical
