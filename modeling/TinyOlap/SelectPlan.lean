import TinyOlap.Execution.RowTree
import TinyOlap.Execution.WhereResult
import TinyOlap.Main

/-!
# Plans of queries without aggregation

A SELECT of columns, with or without a WHERE clause, becomes a projection over a scan of
just the columns it names, with a filter between them if there is a predicate. The filter
stays where it is, and the scan gets the predicate as well, to leave out parts.
-/

set_option autoImplicit false

namespace TinyOlap

open Library Library.WorkPool Catalog Arrow Storage Frontend Physical Execution

variable {schema : TableSchema}

/-! ## Queries -/

/-- An item of the SELECT list: the star, or a column that may get another name. -/
inductive ColumnItem (schema : TableSchema) where
  | star
  | column (ref : ColumnRef schema) (aliasName : Option String)

namespace ColumnItem

def toItem : ColumnItem schema → SelectItem
  | star => .wildcard
  | column ref none => .unnamedExpr ref.toExpr
  | column ref (some aliasName) => .exprWithAlias ref.toExpr aliasName

/-- The columns that an item stands for. -/
def names : ColumnItem schema → List String
  | star => schema.columns.map ColumnSchema.name
  | column ref _ => [ref.column.name]

end ColumnItem

/-- The columns of a SELECT list. -/
def selectNames (items : List (ColumnItem schema)) : List String := items.flatMap ColumnItem.names

/-- `SELECT items FROM t WHERE w LIMIT ...`. -/
def rowQuery (schema : TableSchema) (items : List (ColumnItem schema))
    (w : Option (WherePredicate schema)) (limitClause : Option LimitClause) : Query where
  «with» := false
  body := .select
    { distinct := false
      projection := items.map ColumnItem.toItem
      «from» := [⟨.table schema.name, []⟩]
      selection := w.map WherePredicate.toExpr
      groupBy := .expressions [] []
      having := none }
  orderBy := []
  limitClause := limitClause
  fetch := false

/-- `SELECT items FROM t WHERE e`. -/
def whereQuery (schema : TableSchema) (items : List (ColumnItem schema)) (e : Expr) : Query where
  «with» := false
  body := .select
    { distinct := false
      projection := items.map ColumnItem.toItem
      «from» := [⟨.table schema.name, []⟩]
      selection := some e
      groupBy := .expressions [] []
      having := none }
  orderBy := []
  limitClause := none
  fetch := false

/-! ## Logical plans -/

/-- The plan below a projection. -/
def logicalInput (predicate : Option Logical.LogicalExpr) (schema : TableSchema) :
    Logical.LogicalPlan :=
  match predicate with
  | some p => .filter p (.scan schema.name)
  | none => .scan schema.name

/-- The plan of a query without aggregation and LIMIT. -/
def logicalRows (schema : TableSchema) (names : List String)
    (predicate : Option Logical.LogicalExpr) : Logical.LogicalPlan :=
  .project (names.map fun name => .column schema.name name) (logicalInput predicate schema)

theorem lowerProjection_items (items : List (ColumnItem schema)) :
    Logical.lowerProjection (items.map ColumnItem.toItem) schema =
      .ok ((selectNames items).map fun name => .column schema.name name) := by
  have each : (items.map ColumnItem.toItem).mapM (Logical.lowerSelectItem schema) =
      .ok (items.map fun item => item.names.map fun name => .column schema.name name) := by
    rw [List.mapM_map]
    refine Outcome.mapM_ok fun item _ => ?_
    rw [Function.comp_apply]
    match item with
    | .star =>
        rw [ColumnItem.toItem, Logical.lowerSelectItem, ColumnItem.names, List.map_map]
        rfl
    | .column ref none =>
        rw [ColumnItem.toItem, Logical.lowerSelectItem, ref.lower_toExpr]
        rfl
    | .column ref (some _) =>
        rw [ColumnItem.toItem, Logical.lowerSelectItem, ref.lower_toExpr]
        rfl
  rw [Logical.lowerProjection, each, Outcome.map_ok, selectNames, List.map_flatMap,
    List.flatMap_def]

/-- No item is an aggregate. -/
theorem collectAggregates_items (items : List (ColumnItem schema)) :
    Logical.collectAggregates (items.map ColumnItem.toItem) schema = .ok [] := by
  have none : (items.map ColumnItem.toItem).filterMap Logical.aggregateItem = [] := by
    rw [List.filterMap_eq_nil_iff]
    intro item member
    obtain ⟨source, _, rfl⟩ := List.mem_map.mp member
    match source with
    | .star => rfl
    | .column ref none =>
        rw [ColumnItem.toItem, ColumnRef.toExpr]
        split <;> rfl
    | .column ref (some _) =>
        rw [ColumnItem.toItem, ColumnRef.toExpr]
        split <;> rfl
  rw [Logical.collectAggregates, none]
  rfl

theorem lower_whereQuery (items : List (ColumnItem schema)) (e : Expr) :
    Logical.lower (.query (whereQuery schema items e)) schema = (do
      let predicate ← Logical.lowerExpr schema e
      .ok (logicalRows schema (selectNames items) (some predicate))) := by
  have projected := lowerProjection_items items
  have aggregates := collectAggregates_items items
  cases lowered : Logical.lowerExpr schema e with
  | err message =>
      simp only [Logical.lower, Logical.lowerQuery, whereQuery, lowered]
      rfl
  | panic =>
      simp only [Logical.lower, Logical.lowerQuery, whereQuery, lowered]
      rfl
  | ok predicate =>
      simp only [Logical.lower, Logical.lowerQuery, whereQuery, lowered, Outcome.ok_bind,
        Logical.lowerGroupBy, aggregates, projected]
      rfl

theorem lower_rowQuery (items : List (ColumnItem schema)) (w : Option (WherePredicate schema)) :
    Logical.lower (.query (rowQuery schema items w none)) schema =
      .ok (logicalRows schema (selectNames items) (w.map WherePredicate.toLogical)) := by
  cases w with
  | none =>
      have projected := lowerProjection_items items
      have aggregates := collectAggregates_items items
      simp only [Logical.lower, Logical.lowerQuery, rowQuery, Option.map_none, Outcome.ok_bind,
        Logical.lowerGroupBy, aggregates, projected]
      rfl
  | some w =>
      refine (lower_whereQuery items w.toExpr).trans ?_
      rw [w.lower_toExpr]
      rfl

theorem map_foldExpr_columns (names : List String) :
    (names.map fun name => Logical.LogicalExpr.column schema.name name).map Logical.foldExpr =
      names.map fun name => .column schema.name name := by
  rw [List.map_map]
  rfl

/-- The optimizer coerces a predicate, and leaves an operation that does not fold. -/
theorem optimize_logicalRows_filter (names : List String) {p q : Logical.LogicalExpr}
    (coerces : Logical.coerceExpr schema p = .ok q) (fold : Logical.foldExpr q = q)
    (operation : ∃ left op right, q = .binaryOp left op right) :
    Logical.optimize schema (logicalRows schema names (some p)) =
      .ok (logicalRows schema names (some q)) := by
  have coerced : (Logical.typeCoercion schema).apply (logicalRows schema names (some p)) =
      .ok (logicalRows schema names (some q)) := by
    simp only [Logical.typeCoercion, logicalRows, logicalInput, Logical.rewrite, Outcome.ok_bind,
      coerces]
  have folded : Logical.constantFolding.apply (logicalRows schema names (some q)) =
      .ok (logicalRows schema names (some q)) := by
    simp only [Logical.constantFolding, logicalRows, logicalInput, Logical.rewrite,
      Outcome.ok_bind, map_foldExpr_columns, fold]
  have kept : Logical.eliminateTrueFilter.apply (logicalRows schema names (some q)) =
      .ok (logicalRows schema names (some q)) := by
    obtain ⟨left, op, right, rfl⟩ := operation
    rfl
  rw [Logical.optimize_eq, coerced, Outcome.ok_bind, folded, Outcome.ok_bind, kept]

/-- The optimizer casts the literals of a predicate without constants, and that is all. -/
theorem optimize_logicalRows (names : List String) {w : Option (WherePredicate schema)}
    (plain : ∀ p ∈ w, p.Plain) :
    Logical.optimize schema (logicalRows schema names (w.map WherePredicate.toLogical)) =
      .ok (logicalRows schema names (w.map WherePredicate.coerced)) := by
  cases w with
  | none =>
      have folded : Logical.constantFolding.apply (logicalRows schema names none) =
          .ok (logicalRows schema names none) := by
        simp only [Logical.constantFolding, logicalRows, logicalInput, Logical.rewrite,
          Outcome.ok_bind, map_foldExpr_columns]
      have coerced : (Logical.typeCoercion schema).apply (logicalRows schema names none) =
          .ok (logicalRows schema names none) := rfl
      rw [Logical.optimize_eq, Option.map_none, coerced, Outcome.ok_bind, folded]
      rfl
  | some w =>
      obtain ⟨fold, operation⟩ := WherePredicate.fold_of_plain (plain w rfl)
      exact optimize_logicalRows_filter names w.coerce_toLogical fold operation

/-! ## Physical plans -/

/-- The columns that a query names. -/
def queryColumns (names : List String) (w : Option (WherePredicate schema)) : List String :=
  orderedSet (names ++ w.toList.flatMap fun w => w.columnRefs.map fun ref => ref.column.name)

/-- The plan of a query without aggregation and LIMIT. -/
def physicalRows (table : String) (columns names : List String)
    (predicate : Option PhysicalExpr) : PhysicalPlan :=
  .project (names.map .column)
    (match predicate with
    | some p => .filter p (.zoneMapScan table columns p)
    | none => .fullScan table columns)

theorem collectColumns_logicalRows (names : List String) (w : Option (WherePredicate schema)) :
    collectColumns (logicalRows schema names (w.map WherePredicate.coerced)) =
      names ++ w.toList.flatMap fun w => w.columnRefs.map fun ref => ref.column.name := by
  have projected : (names.map fun name =>
      Logical.LogicalExpr.column schema.name name).flatMap collectExprColumns = names := by
    induction names with
    | nil => rfl
    | cons name names ih =>
        rw [List.map_cons, List.flatMap_cons, ih]
        rfl
  rw [logicalRows, collectColumns, projected]
  cases w with
  | none => rfl
  | some w =>
      rw [Option.map_some, logicalInput, collectColumns, w.collectExprColumns_coerced]
      simp [collectColumns]

theorem mapM_lowerExpr_columns (names : List String) :
    (names.map fun name => Logical.LogicalExpr.column schema.name name).mapM lowerExpr =
      .ok (names.map PhysicalExpr.column) := by
  rw [List.mapM_map]
  exact Outcome.mapM_ok fun _ _ => rfl

/-- **The plan of a query without aggregation and LIMIT.** -/
theorem planSelect_rowQuery (items : List (ColumnItem schema)) {w : Option (WherePredicate schema)}
    (plain : ∀ p ∈ w, p.Plain) :
    planSelect (.query (rowQuery schema items w none)) schema =
      .ok (physicalRows schema.name (queryColumns (selectNames items) w) (selectNames items)
        (w.map WherePredicate.toPhysical)) := by
  have projections := @mapM_lowerExpr_columns schema (selectNames items)
  rw [planSelect, lower_rowQuery, Outcome.ok_bind, optimize_logicalRows _ plain, Outcome.ok_bind,
    Physical.lower, collectColumns_logicalRows]
  cases w with
  | none =>
      simp only [Option.map_none, logicalRows, logicalInput, lowerPlan, projections,
        Outcome.ok_bind]
      rfl
  | some w =>
      have lowered := WherePredicate.lower_coerced (plain w rfl)
      have operation : ∃ left op right, lowerOp left op right = w.toPhysical := by
        cases w with
        | comparison c => exact ⟨_, _, _, c.op.lowerOp_logical _ _⟩
        | integers => exact (plain _ rfl).elim
        | truth => exact (plain _ rfl).elim
        | logical left op right => exact ⟨_, _, _, op.lowerOp_logical _ _⟩
      obtain ⟨left, op, right, same⟩ := operation
      simp only [Option.map_some, logicalRows, logicalInput, lowerPlan, projections, lowered,
        Outcome.ok_bind]
      rw [← same]
      cases op <;> rfl

/-! ## Operators -/

/-- A column is found in the schema by each name of a query. -/
theorem find_queryColumns (distinct : schema.Distinct) (items : List (ColumnItem schema))
    (w : Option (WherePredicate schema)) {name : String}
    (member : name ∈ queryColumns (selectNames items) w) :
    ∃ c, schema.find name = some c ∧ c.name = name := by
  rcases List.mem_append.mp (mem_orderedSet.mp member) with selected | compared
  · obtain ⟨item, _, inside⟩ := List.mem_flatMap.mp selected
    cases item with
    | star =>
        obtain ⟨c, here, rfl⟩ := List.mem_map.mp inside
        exact ⟨c, TableSchema.find_of_mem distinct here, rfl⟩
    | column ref aliasName =>
        cases List.mem_singleton.mp inside
        exact ⟨ref.column, ref.found, rfl⟩
  · obtain ⟨w, _, inside⟩ := List.mem_flatMap.mp compared
    obtain ⟨ref, _, rfl⟩ := List.mem_map.mp inside
    exact ⟨ref.column, ref.found, rfl⟩

theorem scanColumns_eq {names : List String}
    (found : ∀ name ∈ names, ∃ c, schema.find name = some c ∧ c.name = name) :
    ∃ columns, scanColumns schema names = .ok columns ∧
      columns.map ColumnSchema.name = names ∧ ∀ c ∈ columns, c ∈ schema.columns := by
  induction names with
  | nil => exact ⟨[], rfl, rfl, nofun⟩
  | cons name names ih =>
      obtain ⟨c, here, named⟩ := found name List.mem_cons_self
      obtain ⟨columns, built, same, known⟩ := ih fun other inside =>
        found other (List.mem_cons_of_mem _ inside)
      refine ⟨c :: columns, ?_, by rw [List.map_cons, named, same], ?_⟩
      · rw [scanColumns] at built
        rw [scanColumns, List.mapM_cons, here, Outcome.ofOption, Outcome.ok_bind, built]
        rfl
      · intro d member
        rcases List.mem_cons.mp member with rfl | later
        · exact (TableSchema.find_some here).1
        · exact known d later

/-- A column that is read is found among the fields as in the schema. -/
theorem find?_columns {columns : List ColumnSchema} (distinct : schema.Distinct)
    (known : ∀ c ∈ columns, c ∈ schema.columns) {name : String}
    (read : name ∈ columns.map ColumnSchema.name) :
    (columns.map Field.ofColumn).find? (fun f => f.name = name) =
      (schema.find name).map Field.ofColumn := by
  obtain ⟨c, here, named⟩ := List.mem_map.mp read
  cases found : (columns.map Field.ofColumn).find? fun f => f.name = name with
  | none =>
      have missing := List.find?_eq_none.mp found _ (List.mem_map_of_mem here)
      have other : ¬ (Field.ofColumn c).name = name := by simpa using missing
      exact (other named).elim
  | some f =>
      obtain ⟨d, inside, rfl⟩ := List.mem_map.mp (List.mem_of_find?_eq_some found)
      have same : (Field.ofColumn d).name = name := by simpa using List.find?_some found
      rw [← show d.name = name from same, TableSchema.find_of_mem distinct (known d inside),
        Option.map_some]

end TinyOlap
