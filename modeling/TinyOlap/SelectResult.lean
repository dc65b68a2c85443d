import TinyOlap.Library.Pipeline
import TinyOlap.SelectPlan

/-!
# Results of queries without aggregation

The answer to a query without aggregation is defined by the inserted rows: those that
satisfy the predicate, with the selected cells. A worker that runs the tree of the query
over some parts returns the answers of these parts, part after part, and so do all workers
of a gather together.
-/

set_option autoImplicit false

namespace TinyOlap.Physical

variable {schema : Catalog.TableSchema}

theorem WherePredicate.not_comparesFloat (distinct : schema.Distinct) {w : WherePredicate schema}
    (exact : w.Exact) (plain : w.Plain) : ¬ Execution.ComparesFloat schema w.toPhysical := by
  induction w with
  | comparison c =>
      exact not_or.mpr
        ⟨c.left.not_isFloatColumn distinct exact, c.right.not_isFloatColumn distinct exact⟩
  | integers left op right => exact plain.elim
  | truth b => exact plain.elim
  | logical left op right ihLeft ihRight =>
      exact not_or.mpr ⟨ihLeft exact.1 plain.1, ihRight exact.2 plain.2⟩

end TinyOlap.Physical

namespace TinyOlap

open Library Library.WorkPool Catalog Arrow Storage Frontend Physical Execution

/-! ## Stored batches -/

/-- What a part shows that an accepted insert of a batch has added to a table, after any later
inserts. -/
def Inserted (lz4 : Lz4) (schema : TableSchema) (batch : InsertBatch) (partDir : PartDir) : Prop :=
  ∃ (w between w' : TableWriter) (m : PartMetadata) (later : List InsertBatch),
    w.schema = schema ∧ w.insert lz4 batch = (.ok m, between) ∧
      insertAll lz4 between later = some w' ∧ partDir = w'.part m.partId

/-- The answer to a query without aggregation on the rows of a batch. -/
def answer {schema : TableSchema} (names : List String) (w : Option (WherePredicate schema))
    (batch : RecordBatch) : List (List Value) :=
  ((tableRows schema batch).filter fun row => w.all (WherePredicate.holds row)).map
    (selectCells names)

section Select

variable {lz4 : Lz4} {schema : TableSchema} {items : List (ColumnItem schema)}
  {w : Option (WherePredicate schema)}

theorem Inserted.written (distinct : schema.Distinct) (plain : schema.PlainNames)
    {batch : InsertBatch} {partDir : PartDir} (inserted : Inserted lz4 schema batch partDir) :
    WrittenPart lz4 schema batch.toRecordBatch partDir := by
  obtain ⟨w, between, w', m, later, rfl, accepted, all, rfl⟩ := inserted
  have whole := (TableWriter.insert_eq_ok distinct plain accepted).1
  have schema := (TableWriter.insert_partId accepted).2
  rw [← schema] at whole distinct plain
  rw [insertAll_keeps plain all whole, ← schema]
  exact whole.written distinct

theorem selectedRows_eq (distinct : schema.Distinct) (columns : schema.columns ≠ [])
    (plain : ∀ p ∈ w, p.Plain) {batch : RecordBatch} {partDir : PartDir}
    (written : WrittenPart lz4 schema batch partDir) (names : List String) :
    selectedRows lz4 schema (w.map WherePredicate.toPhysical) names partDir =
      answer names w batch := by
  rw [selectedRows, partRows_of_written distinct written columns, answer]
  congr 2
  funext row
  cases w with
  | none => rfl
  | some w => exact WherePredicate.holds_toPhysical (plain w rfl) row

/-! ## The tree -/

theorem evaluable_toPhysical {columns : List ColumnSchema} {p : WherePredicate schema}
    (distinct : schema.Distinct) (known : ∀ c ∈ columns, c ∈ schema.columns) (plain : p.Plain)
    (read : ∀ ref ∈ p.columnRefs, ref.column.name ∈ columns.map ColumnSchema.name) :
    Evaluable (columns.map Field.ofColumn) p.toPhysical := by
  have typed : ∀ {t : DataType} (e : Operand schema t),
      (∀ ref ∈ e.columnRefs, ref.column.name ∈ columns.map ColumnSchema.name) →
        e.Fits (columns.map Field.ofColumn) := by
    intro t e inside
    cases e with
    | literal l => trivial
    | column ref typed =>
        rw [Operand.Fits, operandType,
          find?_columns distinct known (inside ref (List.mem_singleton_self ref)), ref.found]
        rfl
  induction p with
  | comparison c =>
      exact Comparison.evaluable_toPhysical
        (typed c.left fun ref inside => read ref (List.mem_append_left _ inside))
        (typed c.right fun ref inside => read ref (List.mem_append_right _ inside))
  | integers left op right => exact plain.elim
  | truth b => exact plain.elim
  | logical left op right ihLeft ihRight =>
      exact ⟨ihLeft plain.1 fun ref inside => read ref (List.mem_append_left _ inside),
        ihRight plain.2 fun ref inside => read ref (List.mem_append_right _ inside)⟩

/-- **A query without aggregation is planned and built**, to a tree that reads the columns it
needs. -/
theorem exists_rowTree (distinct : schema.Distinct) (nonempty : selectNames items ≠ [])
    (supported : ∀ p ∈ w, p.Plain ∧ p.Exact) :
    ∃ plan columns, planSelect (.query (rowQuery schema items w none)) schema = .ok plan ∧
      buildInner schema plan =
        .ok (rowTree columns (w.map WherePredicate.toPhysical) (selectNames items)) ∧
      findAggregate plan = none ∧
      Reads schema columns (w.map WherePredicate.toPhysical) (selectNames items) := by
  obtain ⟨columns, built, names, known⟩ :=
    scanColumns_eq fun _ member => find_queryColumns distinct items w member
  have selected : selectNames items ⊆ columns.map ColumnSchema.name := by
    intro name member
    rw [names]
    exact mem_orderedSet.mpr (List.mem_append_left _ member)
  refine ⟨_, columns, planSelect_rowQuery items fun p inside => (supported p inside).1, ?_, ?_, ?_⟩
  · cases w with
    | none =>
        rw [Option.map_none, physicalRows, buildInner, buildInner, constructFullScanOperator,
          built]
        rfl
    | some w =>
        rw [Option.map_some, physicalRows, buildInner, buildInner, buildInner,
          constructZoneMapScanOperator, built]
        rfl
  · cases w <;> rfl
  · refine ⟨distinct, ?_, known, selected, ?_, ?_⟩
    · rintro rfl
      exact nonempty (List.subset_nil.mp selected)
    · intro p inside
      obtain ⟨w, here, rfl⟩ := Option.mem_map.mp inside
      refine evaluable_toPhysical distinct known (supported w here).1 fun ref member => ?_
      rw [names]
      refine mem_orderedSet.mpr (List.mem_append_right _ (List.mem_flatMap.mpr ⟨w, ?_, ?_⟩))
      · exact Option.mem_toList.mpr here
      · exact List.mem_map_of_mem member
    · intro p inside
      obtain ⟨w, here, rfl⟩ := Option.mem_map.mp inside
      exact WherePredicate.not_comparesFloat distinct (supported w here).2 (supported w here).1

theorem runSelect_rowQuery (distinct : schema.Distinct) (nonempty : selectNames items ≠ [])
    (supported : ∀ p ∈ w, p.Plain ∧ p.Exact) :
    ∃ columns, Reads schema columns (w.map WherePredicate.toPhysical) (selectNames items) ∧
      ∀ tableDir, runSelect (.query (rowQuery schema items w none)) schema tableDir =
        .ok ⟨listParts tableDir,
          rowTree columns (w.map WherePredicate.toPhysical) (selectNames items), none⟩ := by
  obtain ⟨plan, columns, planned, built, noAggregate, reads⟩ :=
    exists_rowTree distinct nonempty supported
  refine ⟨columns, reads, fun tableDir => ?_⟩
  rw [runSelect, planned, Outcome.ok_bind, build, built, Outcome.ok_bind, noAggregate]
  rfl

/-! ## One worker -/

/-- **One worker returns the answer**, if no column name has a slash. A query selects at least
one column, and its WHERE clause, if there is one, is a tree of AND and OR over comparisons of
integers, Bools or texts with a column. The worker's tree is executed on parts that inserts of
batches with at least one row have added. It ends after enough turns, and its batches, none of
which is empty, hold the answers of the batches in the order of the parts. -/
theorem select_rows (lz4 : Lz4) (schema : TableSchema) (distinct : schema.Distinct)
    (slashless : schema.PlainNames) (items : List (ColumnItem schema))
    (nonempty : selectNames items ≠ [])
    (w : Option (WherePredicate schema)) (supported : ∀ p ∈ w, p.Plain ∧ p.Exact)
    (stored : List (InsertBatch × PartDir))
    (inserted : ∀ entry ∈ stored,
      Inserted lz4 schema entry.1 entry.2 ∧ 0 < entry.1.numRows) :
    ∃ plan tree, planSelect (.query (rowQuery schema items w none)) schema = .ok plan ∧
      buildInner schema plan = .ok tree ∧
      ∃ emitted : List RecordBatch,
        (∃ turns, ∀ fuel > turns, collect (ExecutionPlan.act lz4) fuel tree
          (stored.map Prod.snd) = some (emitted.map .ok)) ∧
        emitted.flatMap RecordBatch.rows =
          (stored.map Prod.fst).flatMap (fun batch =>
            answer (selectNames items) w batch.toRecordBatch) ∧
        ∀ b ∈ emitted, 0 < b.numRows := by
  obtain ⟨plan, columns, planned, built, _, reads⟩ := exists_rowTree distinct nonempty supported
  have filled : ∀ partDir ∈ stored.map Prod.snd, Filled lz4 schema partDir := by
    intro partDir member
    obtain ⟨entry, here, rfl⟩ := List.mem_map.mp member
    exact ⟨_, (inserted entry here).1.written distinct slashless, (inserted entry here).2⟩
  obtain ⟨base, weight, delivers, exhausts⟩ := reads.delivers filled
  refine ⟨plan, _, planned, built, _, ⟨_, fun fuel enough => collect_eq delivers exhausts enough⟩,
    ?_, ?_⟩
  · have each : ∀ entry ∈ stored,
        (rowBatches lz4 columns (w.map WherePredicate.toPhysical) (selectNames items)
          entry.2).flatMap RecordBatch.rows =
        answer (selectNames items) w entry.1.toRecordBatch := by
      intro entry member
      rw [(rowBatches_rows reads (filled _ (List.mem_map_of_mem member))).1]
      exact selectedRows_eq distinct reads.someColumn (fun p inside => (supported p inside).1)
        ((inserted entry member).1.written distinct slashless) _
    rw [List.flatMap_assoc, List.flatMap_map, List.flatMap_map]
    exact List.flatMap_congr each
  · intro b member
    obtain ⟨partDir, here, inside⟩ := List.mem_flatMap.mp member
    exact (rowBatches_rows reads (filled partDir here)).2 b inside

end Select

/-! ## A table with one column -/

/-- The column, without the table in front. -/
def numberColumn : ColumnRef numberSchema := ⟨⟨"a", .int .i8⟩, rfl, false⟩

/-- `6 < a`. -/
def aboveSix : WherePredicate numberSchema :=
  .comparison
    { type := .int .i8
      left := .literal
        ⟨.number "6", .int (MachineInt.wrap true 63 6), rfl, MachineInt.wrap true 7 6, rfl⟩
      op := .lt
      right := .column numberColumn rfl
      column := .inr ⟨_, _, rfl⟩ }

/-- `SELECT a FROM t WHERE 6 < a` returns 9. -/
theorem select_rows_nine : ∃ partDir plan tree,
    Inserted Lz4.literals numberSchema fiveAndNine partDir ∧
    planSelect (.query (rowQuery numberSchema [.column numberColumn none] (some aboveSix) none))
      numberSchema = .ok plan ∧
    buildInner numberSchema plan = .ok tree ∧
    ∃ emitted : List RecordBatch,
      (∃ turns, ∀ fuel > turns, collect (ExecutionPlan.act Lz4.literals) fuel tree [partDir] =
        some (emitted.map .ok)) ∧
      emitted.flatMap RecordBatch.rows = [[⟨.data (.int .i8), MachineInt.wrap true 7 9⟩]] := by
  obtain ⟨m, w, accepted⟩ : ∃ m w, (TableWriter.open numberSchema .dataDir).insert Lz4.literals
      fiveAndNine = (.ok m, w) := ⟨_, _, rfl⟩
  obtain ⟨partDir, inserted⟩ : ∃ partDir,
      Inserted Lz4.literals numberSchema fiveAndNine partDir :=
    ⟨_, _, w, w, m, [], rfl, accepted, rfl, rfl⟩
  have supported : ∀ p ∈ some aboveSix, p.Plain ∧ p.Exact := by
    rintro p ⟨⟩
    exact ⟨trivial, nofun, nofun⟩
  have filled : ∀ entry ∈ [(fiveAndNine, partDir)],
      Inserted Lz4.literals numberSchema entry.1 entry.2 ∧ 0 < entry.1.numRows := by
    intro entry member
    cases List.mem_singleton.mp member
    exact ⟨inserted, Nat.two_pos⟩
  obtain ⟨plan, tree, planned, built, emitted, ends, rows, _⟩ :=
    select_rows Lz4.literals numberSchema (by decide) (by decide) [.column numberColumn none]
      (by decide) (some aboveSix) supported [(fiveAndNine, partDir)] filled
  exact ⟨partDir, plan, tree, inserted, planned, built, emitted, ends, rows.trans rfl⟩

/-! ## A column with a slash in its name -/

/-- A table whose only column is kept in the table directory. -/
def parentSchema : TableSchema := ⟨"t", [⟨"../x", .int .i8⟩]⟩

/-- A batch with one number. -/
def oneNumber (n : Int) : InsertBatch where
  fields := [⟨"../x", .data (.int .i8)⟩]
  columns := [⟨.data (.int .i8), [MachineInt.wrap true 7 n]⟩]
  numRows := 1
  typed := rfl
  lengths := by
    intro a member
    cases List.mem_singleton.mp member
    rfl
  offsets := by
    intro a member
    cases List.mem_singleton.mp member
    exact Nat.two_pow_pos 31

/-- The row with this number. -/
def byteRow (n : Int) : List Value := [⟨.data (.int .i8), MachineInt.wrap true 7 n⟩]

set_option maxRecDepth 4000 in
/-- Both parts of the table have the file `x.bin` of the table directory, and the second insert
writes over what the first has written. `SELECT *` returns 2 and 2, but 1 and 2 were inserted. -/
theorem select_rows_shared_file : ∃ (partDir partDir' : PartDir) (plan : PhysicalPlan)
    (tree : ExecutionPlan) (emitted : List RecordBatch),
    Inserted Lz4.literals parentSchema (oneNumber 1) partDir ∧
    Inserted Lz4.literals parentSchema (oneNumber 2) partDir' ∧
    planSelect (.query (rowQuery parentSchema [.star] none none)) parentSchema = .ok plan ∧
    buildInner parentSchema plan = .ok tree ∧
    (∃ turns, ∀ fuel > turns, collect (ExecutionPlan.act Lz4.literals) fuel tree
      [partDir, partDir'] = some (emitted.map .ok)) ∧
    emitted.flatMap RecordBatch.rows = [byteRow 2, byteRow 2] ∧
    [oneNumber 1, oneNumber 2].flatMap (fun batch =>
      @answer parentSchema (selectNames ([.star] : List (ColumnItem parentSchema))) none
        batch.toRecordBatch) = [byteRow 1, byteRow 2] := by
  obtain ⟨m, m', between, w, first, second, emitted, ran, rows⟩ : ∃ m m' between w,
      (TableWriter.open parentSchema .dataDir).insert Lz4.literals (oneNumber 1) =
        (.ok m, between) ∧
      between.insert Lz4.literals (oneNumber 2) = (.ok m', w) ∧
      ∃ emitted : List RecordBatch,
        collect (ExecutionPlan.act Lz4.literals) 20 (rowTree parentSchema.columns none ["../x"])
          [w.part m.partId, w.part m'.partId] = some (emitted.map .ok) ∧
        emitted.flatMap RecordBatch.rows = [byteRow 2, byteRow 2] :=
    ⟨_, _, _, _, rfl, rfl, [_, _], rfl, rfl⟩
  have planned := @planSelect_rowQuery parentSchema [.star] none (by simp)
  have columns : queryColumns (selectNames ([.star] : List (ColumnItem parentSchema)))
      (none : Option (WherePredicate parentSchema)) = ["../x"] := by
    simp [queryColumns, orderedSet, selectNames, ColumnItem.names, parentSchema]
  rw [columns] at planned
  refine ⟨_, _, _, _, emitted, ⟨_, between, w, m, [oneNumber 2], rfl, first, ?_, rfl⟩,
    ⟨between, w, w, m', [], (TableWriter.insert_partId first).2, second, rfl, rfl⟩, planned, rfl,
    ⟨20, fun fuel more => collect_mono (Nat.le_of_lt more) ran⟩, rows, rfl⟩
  rw [insertAll, second]
  rfl

end TinyOlap
