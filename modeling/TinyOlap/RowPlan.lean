import TinyOlap.Execution.LimitedWorkers
import TinyOlap.QueryRun
import TinyOlap.SelectResult
import TinyOlap.WherePlan

/-!
# Queries without aggregation, with any WHERE clause and a LIMIT

A SELECT of columns whose WHERE clause runs becomes a projection over a scan, with a filter
between them if the clause is not always true (`exists_rowRoot`). A LIMIT stands on top of the
plan, and so on top of the tree of every worker (`runSelect_limited`); what merges the results of
the workers does not see it.
-/

set_option autoImplicit false

namespace TinyOlap

open Library Library.WorkPool Catalog Arrow Storage Frontend Physical Execution

variable {lz4 : Lz4} {schema : TableSchema}

/-! ## Planning -/

/-- **What planning makes of a query without aggregation**: a tree that reads the columns it
needs, with a predicate that means the WHERE clause if this runs. -/
theorem exists_rowRoot (distinct : schema.Distinct) {items : List (ColumnItem schema)}
    (nonempty : selectNames items ≠ []) {w : Option (WherePredicate schema)}
    (supported : ∀ v ∈ w, v.Supported) :
    ∃ p columns, (∀ row, p.all (holds row) = w.all (WherePredicate.holds row)) ∧
      Reads schema columns p (selectNames items) ∧
      ∀ tableDir, runSelect (.query (rowQuery schema items w none)) schema tableDir =
        .ok ⟨listParts tableDir, rowTree columns p (selectNames items), none⟩ := by
  obtain ⟨input, p, scan, plan⟩ := exists_inputPlan w
  have projections := @mapM_lowerExpr_columns schema (selectNames items)
  have optimized : Logical.optimize schema
      (logicalRows schema (selectNames items) (w.map WherePredicate.toLogical)) =
        .ok (.project ((selectNames items).map fun name => .column schema.name name) input) := by
    rw [logicalRows, Logical.optimize_project, scan, map_foldExpr_columns]
    rfl
  -- the columns that the scan reads
  let names := orderedSet (collectColumns
    (.project ((selectNames items).map fun name => .column schema.name name) input))
  have member {name : String} : name ∈ names ↔
      name ∈ selectNames items ∨ name ∈ collectColumns input := by
    rw [mem_orderedSet, collectColumns, List.mem_append, List.flatMap_map]
    simp only [collectExprColumns, List.flatMap_singleton']
  have found : ∀ name ∈ names, ∃ c, schema.find name = some c ∧ c.name = name := by
    intro name here
    rcases member.mp here with selected | below
    · exact find_queryColumns distinct items (none : Option (WherePredicate schema))
        (mem_orderedSet.mpr (List.mem_append_left _ selected))
    · exact plan.known name below
  obtain ⟨columns, scanned, named, known⟩ := scanColumns_eq found
  have selected : selectNames items ⊆ columns.map ColumnSchema.name := fun name here =>
    named ▸ member.mpr (.inl here)
  have some : columns ≠ [] := by
    rintro rfl
    exact nonempty (List.subset_nil.mp selected)
  have reads := plan.reads distinct supported some known
    (fun name here => named ▸ member.mpr (.inr here)) selected
  refine ⟨p, columns, plan.means supported, reads, fun tableDir => ?_⟩
  obtain ⟨lowered, made, optimizes⟩ := plan.lowered names
  have planned : planSelect (.query (rowQuery schema items w none)) schema =
      .ok (.project ((selectNames items).map .column) (physicalInput schema.name names p)) := by
    rw [planSelect_of_lower (lower_rowQuery items w), planLogical, optimized, Outcome.ok_bind,
      Physical.lower, lowerPlan, projections, Outcome.ok_bind, made, ← optimizes]
    rfl
  rw [runSelect, planned, Outcome.ok_bind, build]
  cases p with
  | none =>
      rw [physicalInput, buildInner, buildInner, constructFullScanOperator, scanned]
      rfl
  | some p =>
      rw [physicalInput, buildInner, buildInner, buildInner, constructZoneMapScanOperator, scanned]
      rfl

/-- A query with a LIMIT clause. -/
def limited (query : Query) (clause : LimitClause) : Query :=
  { query with limitClause := some clause }

theorem lower_limited {query : Query} (unlimited : query.limitClause = none)
    (clause : LimitClause) :
    Logical.lower (.query (limited query clause)) schema = (do
      let plan ← Logical.lower (.query query) schema
      let limit ← Logical.lowerLimit clause
      .ok (.limit limit plan)) := by
  rw [Logical.lower, Logical.lower, Logical.lowerQuery, Logical.lowerQuery, limited]
  cases query.body with
  | select select =>
      cases selected : select.selection <;>
        simp only [selected, unlimited, bind_assoc, Outcome.ok_bind]
  | _ => rfl

/-- **A LIMIT is copied to the workers**, and to nothing else. -/
theorem runSelect_limited {query : Query} (unlimited : query.limitClause = none)
    {clause : LimitClause} {limit : Nat} (read : Logical.lowerLimit clause = .ok limit)
    {tableDir : PartList} {root : RootExec}
    (ran : runSelect (.query query) schema tableDir = .ok root) :
    runSelect (.query (limited query clause)) schema tableDir =
      .ok { root with child := .limit limit 0 root.child } := by
  rw [runSelect, Outcome.bind_eq_ok] at ran
  obtain ⟨physical, planned, built⟩ := ran
  obtain ⟨logical, lowered, _⟩ := Outcome.bind_eq_ok.mp planned
  rw [planSelect_of_lower lowered] at planned
  have lowered' : Logical.lower (.query (limited query clause)) schema =
      .ok (.limit limit logical) := by
    rw [lower_limited unlimited, lowered, Outcome.ok_bind, read]
    rfl
  rw [runSelect, planSelect_of_lower lowered', planLogical_limit, planned, Outcome.map_ok,
    Outcome.ok_bind]
  rw [Outcome.mapErr_eq_ok, build, Outcome.bind_eq_ok] at built
  obtain ⟨child, inner, merged⟩ := built
  have inner' : buildInner schema (.limit limit physical) = .ok (.limit limit 0 child) := by
    rw [buildInner, inner]
    rfl
  rw [build, inner', Outcome.ok_bind, findAggregate]
  cases found : findAggregate physical with
  | none =>
      simp only [found, Outcome.ok_bind] at merged ⊢
      cases merged
      rfl
  | some clauses =>
      simp only [found, Outcome.bind_eq_ok] at merged ⊢
      obtain ⟨accumulators, made, fields, grouped, merge, same, rest⟩ := merged
      cases same
      cases rest
      simp only [made, grouped, Outcome.ok_bind]
      rfl

/-! ## Answers -/

/-- The rows that a query selects of a part are its answer. -/
theorem selectedRows_eq_answer (distinct : schema.Distinct) (columns : schema.columns ≠ [])
    {w : Option (WherePredicate schema)} {p : Option PhysicalExpr}
    (means : ∀ row, p.all (holds row) = w.all (WherePredicate.holds row)) {batch : RecordBatch}
    {partDir : PartDir} (written : WrittenPart lz4 schema batch partDir) (names : List String) :
    selectedRows lz4 schema p names partDir = answer names w batch := by
  simp only [selectedRows, partRows_of_written distinct written columns, answer, means]

/-- The answer to a query without aggregation on all batches. -/
def rowAnswers (items : List (ColumnItem schema)) (w : Option (WherePredicate schema))
    (batches : List InsertBatch) : List (List Value) :=
  batches.flatMap fun batch => answer (selectNames items) w batch.toRecordBatch

/-- The rows of all batches. -/
def insertedRows (schema : TableSchema) (batches : List InsertBatch) : List NamedRow :=
  batches.flatMap fun batch => tableRows schema batch.toRecordBatch

/-! ## A table that inserts have filled -/

/-- The parts of a table were written for these batches. -/
def StoredAs (lz4 : Lz4) (schema : TableSchema) (parts : PartList)
    (batches : List InsertBatch) : Prop :=
  List.Forall₂ (fun (entry : String × PartDir) (batch : InsertBatch) =>
    WrittenPart lz4 schema batch.toRecordBatch entry.2) parts batches

/-- **Inserts fill a table**, if no column name has a slash. -/
theorem storedAs_of_insertAll (distinct : schema.Distinct) (plain : schema.PlainNames)
    {around : Surroundings} {batches : List InsertBatch} {writer : TableWriter}
    (accepted : insertAll lz4 (.open schema (.fresh around)) batches = some writer) :
    StoredAs lz4 schema writer.parts batches := by
  obtain ⟨added, parts, each⟩ := insertAll_parts (w := .open schema (.fresh around)) distinct plain
    (Disk.solid_fresh around) accepted
  rw [parts]
  exact each.flip

namespace StoredAs

variable {parts : PartList} {batches : List InsertBatch}

/-- The parts in the order in which they are handed out. -/
theorem exists_order (stored : StoredAs lz4 schema parts batches) :
    ∃ order : List InsertBatch, order.Perm batches ∧
      List.Forall₂ (fun partDir (batch : InsertBatch) =>
        WrittenPart lz4 schema batch.toRecordBatch partDir) (listParts parts) order := by
  have written : List.Forall₂ (fun partDir (batch : InsertBatch) =>
      WrittenPart lz4 schema batch.toRecordBatch partDir) (parts.map Prod.snd) batches :=
    List.forall₂_map_left_iff.mpr stored
  obtain ⟨order, written, perm⟩ := List.perm_comp_forall₂ (listParts_perm parts) written
  exact ⟨order, perm, written⟩

/-- Each part was written for a batch with a row, if all batches have one. -/
theorem filled (stored : StoredAs lz4 schema parts batches)
    (rows : ∀ batch ∈ batches, 0 < batch.numRows) :
    ∀ partDir ∈ listParts parts, Filled lz4 schema partDir := by
  obtain ⟨order, perm, written⟩ := stored.exists_order
  intro partDir member
  obtain ⟨batch, inside, made⟩ := exists_of_mem_left written member
  exact ⟨_, made, rows batch (perm.subset inside)⟩

/-- The rows of all parts are those of the batches. -/
theorem partRows_perm (stored : StoredAs lz4 schema parts batches) (distinct : schema.Distinct)
    (columns : schema.columns ≠ []) :
    ((listParts parts).flatMap (partRows lz4 schema)).Perm (insertedRows schema batches) := by
  obtain ⟨order, perm, written⟩ := stored.exists_order
  refine .trans (.of_eq ?_) (perm.flatMap_right _)
  exact flatMap_eq_of_forall₂ (written.imp fun partDir batch made =>
    partRows_of_written distinct made columns)

end StoredAs

/-- **A query without aggregation returns its answers**, if its WHERE clause runs. -/
theorem rowQuery_yields (distinct : schema.Distinct) {items : List (ColumnItem schema)}
    (nonempty : selectNames items ≠ []) {w : Option (WherePredicate schema)}
    (supported : ∀ v ∈ w, v.Supported) {batches : List InsertBatch} {tableDir : PartList}
    (stored : StoredAs lz4 schema tableDir batches)
    (rows : ∀ batch ∈ batches, 0 < batch.numRows) {workers : Nat} (positive : 0 < workers) :
    QueryYields lz4 schema (rowQuery schema items w none) tableDir workers fun returned =>
      (returned.flatMap RecordBatch.rows).Perm (rowAnswers items w batches) := by
  obtain ⟨p, columns, means, reads, ran⟩ := exists_rowRoot distinct nonempty supported
  obtain ⟨order, perm, written⟩ := stored.exists_order
  have filled := stored.filled rows
  refine ⟨_, _, ran _, if_neg (Nat.ne_of_gt positive), reads.ends filled workers,
    fun events g steps hungUp => ?_⟩
  obtain ⟨returned, received, expected, _⟩ := reads.gathers filled positive steps hungUp
  refine ⟨returned, returned_of_batches rfl received hungUp, expected.trans ?_⟩
  refine .trans (.of_eq ?_) (perm.flatMap_right _)
  exact flatMap_eq_of_forall₂ (written.imp fun partDir batch made =>
    selectedRows_eq_answer distinct reads.someColumn means made _)

end TinyOlap
