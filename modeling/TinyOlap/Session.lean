import TinyOlap.Dml.InsertInteger
import TinyOlap.LookupInteger
import TinyOlap.SelectMeaning

/-!
# Sessions

A session runs one statement after another on one table directory. A statement is refused by the
validator or the analyzer, or it is an INSERT, or it is planned, built and run by workers whose
steps interleave in any way; an error or a panic of the main thread ends the statement, and the
next process goes on with the directory as it is. Whatever statements come, what is stored are the
rows of the INSERTs that have returned Ok, in order, and a SELECT of columns returns its meaning
on these rows (`session_answers`).
-/

set_option autoImplicit false

namespace TinyOlap

open Library Library.WorkPool Catalog Arrow Storage Frontend Physical Execution Logical

variable {lz4 : Lz4} {schema : TableSchema} {around : Surroundings} {disk disk' : Disk}
  {tableDir : PartList}

/-! ## Statements -/

/-- What a statement returns. -/
inductive Reply where
  | inserted (m : PartMetadata)
  | selected (batches : List RecordBatch)

/-- The checks that every statement has to pass. -/
def checkStatement (stmt : Statement) (schema : TableSchema) : TextResult Unit := do
  validate stmt
  analyze stmt schema

/-- `run_sql`, on the statement that was parsed: what it returns, and the file system that it
leaves. A query can return anything that some schedule of its workers makes it return. -/
inductive RunSql (lz4 : Lz4) (schema : TableSchema) (disk : Disk) (stmt : Statement) :
    TextResult Reply → Disk → Prop
  | refused (e : String) (failed : checkStatement stmt schema = .err e) :
      RunSql lz4 schema disk stmt (.err e) disk
  | insert (i : Insert) (kind : stmt = .insert i) (checked : checkStatement stmt schema = .ok ())
      (result : TextResult PartMetadata) (disk' : Disk)
      (ran : runInsert lz4 stmt schema disk = (result, disk')) :
      RunSql lz4 schema disk stmt (Reply.inserted <$> result) disk'
  | fails (kind : ∀ i, stmt ≠ .insert i) (checked : checkStatement stmt schema = .ok ())
      (e : String) (failed : runSelect stmt schema (disk.parts schema) = .err e) :
      RunSql lz4 schema disk stmt (.err e) disk
  | panics (kind : ∀ i, stmt ≠ .insert i) (checked : checkStatement stmt schema = .ok ())
      (failed : runSelect stmt schema (disk.parts schema) = .panic) :
      RunSql lz4 schema disk stmt .panic disk
  | select (kind : ∀ i, stmt ≠ .insert i) (checked : checkStatement stmt schema = .ok ())
      (root : RootExec) (planned : runSelect stmt schema (disk.parts schema) = .ok root)
      (start : GatherExec) (created : GatherExec.new root.parts nWorkers root.child = .ok start)
      (events : List Event) (g : GatherExec) (ran : start.run lz4 events = some g)
      (result : ExecResult (List RecordBatch)) (returned : root.returned g = some result) :
      RunSql lz4 schema disk stmt (Reply.selected <$> result.mapErr errorText) disk

/-! ## What a query returns in the end -/

theorem consume_append (s : AggregateExec) (results more : List BatchResult) :
    s.consume (results ++ more) = s.consume results >>= fun s => s.consume more := by
  induction results generalizing s with
  | nil => rfl
  | cons result rest ih =>
      cases result with
      | error e => rfl
      | ok batch =>
          rw [List.cons_append, AggregateExec.consume, AggregateExec.consume]
          split
          · exact ih _
          · rfl
          · rfl

/-- Once there is a result, it stays. -/
theorem returned_stays {root : RootExec} {g g' : GatherExec} {events : List Event}
    (ran : g.run lz4 events = some g') (going : g.hungUp = false)
    {result : ExecResult (List RecordBatch)} (returned : root.returned g = some result) :
    root.returned g' = some result := by
  obtain ⟨more, received⟩ := (received_prefix_of_run ran).map Prod.snd
  have results : g'.returned = g.returned ++ more := received.symm
  unfold RootExec.returned at returned ⊢
  cases kind : root.merge with
  | none =>
      rw [kind] at returned
      simp only [going, results, RootExec.collectBatches, List.mapM_append] at returned ⊢
      cases collected : g.returned.mapM (Outcome.ofExcept (id : ExecutionError → _)) with
      | ok batches => simp [collected] at returned
      | err e => simpa [collected] using returned
      | panic => simpa [collected] using returned
  | some merge =>
      simp only [kind, going, results] at returned ⊢
      rw [consume_append]
      cases consumed : merge.consume g.returned with
      | ok merge => simp [consumed] at returned
      | err e => simpa [consumed] using returned
      | panic => simpa [consumed] using returned

/-- A query that yields something returns nothing else, at any time. -/
theorem QueryYields.returned {query : Query} {workers : Nat} {P : List RecordBatch → Prop}
    (yields : QueryYields lz4 schema query tableDir workers P) {root : RootExec}
    (planned : runSelect (.query query) schema tableDir = .ok root) {start : GatherExec}
    (created : GatherExec.new root.parts workers root.child = .ok start) {events : List Event}
    {g : GatherExec} (ran : start.run lz4 events = some g) {result : ExecResult (List RecordBatch)}
    (returned : root.returned g = some result) : ∃ batches, result = .ok batches ∧ P batches := by
  obtain ⟨root', start', planned', created', ⟨bound, safe⟩, returns⟩ := yields
  cases planned.symm.trans planned'
  cases created.symm.trans created'
  cases going : g.hungUp with
  | true =>
      obtain ⟨batches, same, kind⟩ := returns events g ran going
      exact ⟨batches, Option.some.inj (returned.symm.trans same), kind⟩
  | false =>
      obtain ⟨more, g', completed, ended⟩ :=
        exists_hungUp (fun events g steps => (safe events g steps).2) ran
      obtain ⟨batches, same, kind⟩ := returns _ g' completed ended
      rw [GatherExec.run, run_append] at completed
      obtain ⟨between, ran', onward⟩ := Option.bind_eq_some_iff.mp completed
      cases ran.symm.trans ran'
      exact ⟨batches, Option.some.inj ((returned_stays onward going returned).symm.trans same),
        kind⟩

/-! ## Sessions -/

/-- The statements so far, with what they have returned, and the file system they leave. The first
one finds no table directory. -/
inductive Session (lz4 : Lz4) (schema : TableSchema) (around : Surroundings) :
    List (Statement × TextResult Reply) → Disk → Prop
  | start : Session lz4 schema around [] (.fresh around)
  | next {history : List (Statement × TextResult Reply)} {disk disk' : Disk}
      {stmt : Statement} {reply : TextResult Reply}
      (before : Session lz4 schema around history disk)
      (ran : RunSql lz4 schema disk stmt reply disk') :
      Session lz4 schema around (history ++ [(stmt, reply)]) disk'

/-- The rows that the VALUES of a statement write. -/
def writtenRows (schema : TableSchema) (stmt : Statement) : List (List (Option Value)) :=
  match Dml.extractRows stmt with
  | .ok rows => rows.map (Dml.writtenRow schema)
  | _ => []

/-- The rows of a statement that has inserted them. -/
def acceptedRows (schema : TableSchema) (stmt : Statement) :
    TextResult Reply → List (List (Option Value))
  | .ok (.inserted _) => writtenRows schema stmt
  | _ => []

/-- **One statement**: it adds its rows as one more part, if it has inserted them. -/
theorem RunSql.stores (distinct : schema.Distinct) (plain : schema.PlainNames)
    {stmt : Statement} {reply : TextResult Reply} (ran : RunSql lz4 schema disk stmt reply disk')
    (solid : disk.Solid) :
    disk'.Solid ∧
    ((disk'.parts schema = disk.parts schema ∧ acceptedRows schema stmt reply = []) ∨
    ∃ entry rows, ∃ batch : InsertBatch,
      disk'.parts schema = disk.parts schema ++ [entry] ∧
      Dml.extractRows stmt = .ok rows ∧ batch.numRows = rows.length ∧
      WrittenPart lz4 schema batch.toRecordBatch entry.2 ∧
      batch.rows.map (List.map some) = acceptedRows schema stmt reply) := by
  cases ran with
  | refused e failed => exact ⟨solid, .inl ⟨rfl, rfl⟩⟩
  | fails kind checked e failed => exact ⟨solid, .inl ⟨rfl, rfl⟩⟩
  | panics kind checked failed => exact ⟨solid, .inl ⟨rfl, rfl⟩⟩
  | select kind checked root planned start created events g ran result returned =>
      refine ⟨solid, .inl ⟨rfl, ?_⟩⟩
      cases result <;> rfl
  | insert i kind checked result disk' ran =>
      cases built : Dml.buildRecordBatch stmt schema with
      | err e =>
          rw [runInsert, built] at ran
          cases ran
          exact ⟨solid, .inl ⟨rfl, rfl⟩⟩
      | panic =>
          rw [runInsert, built] at ran
          cases ran
          exact ⟨solid, .inl ⟨rfl, rfl⟩⟩
      | ok batch =>
          rw [runInsert, built] at ran
          cases inserted : (TableWriter.open schema disk).insert lz4 batch with
          | mk outcome writer =>
              simp only [inserted] at ran
              cases ran
              have failed : (∀ m, outcome ≠ .ok m) → writer.disk.Solid ∧
                  writer.disk.parts schema = disk.parts schema := by
                intro refused
                obtain ⟨touches, _⟩ :=
                  TableWriter.insert_failed (w := .open schema disk) plain inserted refused
                exact ⟨touches.solid (not_listedName_tmpName _) solid,
                  touches.parts plain (not_listedName_tmpName _)⟩
              cases outcome with
              | err e =>
                  obtain ⟨stays, same⟩ := failed (by simp)
                  exact ⟨stays, .inl ⟨same, rfl⟩⟩
              | panic =>
                  obtain ⟨stays, same⟩ := failed (by simp)
                  exact ⟨stays, .inl ⟨same, rfl⟩⟩
              | ok m =>
                  obtain ⟨stays, parts⟩ :=
                    TableWriter.insert_solid (w := .open schema disk) distinct plain inserted solid
                  obtain ⟨whole, _⟩ :=
                    TableWriter.insert_eq_ok (w := .open schema disk) distinct plain inserted
                  obtain ⟨rows, extracted, _, _, count, stored⟩ := Dml.buildRecordBatch_eq_ok built
                  have sameSchema : writer.schema = schema :=
                    (TableWriter.insert_partId inserted).2
                  rw [TableWriter.parts, sameSchema] at parts
                  refine ⟨stays, .inr ⟨_, rows, batch, parts, extracted, count,
                    whole.written distinct, ?_⟩⟩
                  rw [stored]
                  show _ = writtenRows schema stmt
                  rw [writtenRows, extracted]

/-- **What is stored in a session** are the rows of the statements that have inserted them. -/
theorem Session.stored (distinct : schema.Distinct) (plain : schema.PlainNames)
    {history : List (Statement × TextResult Reply)}
    (session : Session lz4 schema around history disk)
    (nonempty : ∀ entry ∈ history, ∀ rows, Dml.extractRows entry.1 = .ok rows → rows ≠ []) :
    disk.Solid ∧ ∃ batches : List InsertBatch, StoredAs lz4 schema (disk.parts schema) batches ∧
      (∀ batch ∈ batches, 0 < batch.numRows) ∧
      (batches.flatMap fun batch => batch.rows).map (List.map some) =
        history.flatMap fun entry => acceptedRows schema entry.1 entry.2 := by
  induction session with
  | start => exact ⟨Disk.solid_fresh around, [], .nil, by simp, rfl⟩
  | @next history disk disk' stmt reply before ran ih =>
      obtain ⟨solid, batches, stored, filled, rows⟩ :=
        ih fun entry member => nonempty entry (List.mem_append_left _ member)
      rw [List.flatMap_append, List.flatMap_singleton, ← rows]
      obtain ⟨stays, ⟨same, none⟩ |
        ⟨entry, new, batch, parts, extracted, count, written, accepted⟩⟩ :=
        ran.stores distinct plain solid
      · exact ⟨stays, batches, same ▸ stored, filled, by rw [none, List.append_nil]⟩
      · refine ⟨stays, batches ++ [batch], ?_, ?_, ?_⟩
        · rw [parts]
          exact List.rel_append stored (.cons written .nil)
        · intro b member
          rcases List.mem_append.mp member with old | here
          · exact filled b old
          · rw [List.mem_singleton.mp here, count]
            exact List.length_pos_iff.mpr (nonempty (stmt, reply) (by simp) new extracted)
        · rw [List.flatMap_append, List.flatMap_singleton, List.map_append, accepted]

/-! ## Tables -/

/-- A stored value, as one of a table. -/
def datumOf (v : Value) : Logical.Datum :=
  match v with
  | ⟨.data t, n⟩ => .typed t n
  | ⟨.sumCount, _⟩ => .null

theorem datumOf_typed {v : Value} {t : DataType} (type : v.type = toArrow t) :
    (datumOf v).HasType t ∧ (datumOf v).stored = some v := by
  obtain ⟨type', n⟩ := v
  cases type
  exact ⟨⟨n, rfl⟩, rfl⟩

theorem row_types {batch : RecordBatch} {partDir : PartDir}
    (written : WrittenPart lz4 schema batch partDir) {row : List Value}
    (member : row ∈ batch.rows) :
    List.Forall₂ (fun (c : ColumnSchema) (v : Value) => v.type = toArrow c.dataType)
      schema.columns row := by
  have types := forall₂_of_map_eq written.typed
  refine forall₂_trans types (RecordBatch.forall₂_of_mem_rowsOf member) fun c a v type inside => ?_
  obtain ⟨native, _, rfl⟩ := List.mem_map.mp inside
  exact type

/-- The rows that are stored are those of a table. -/
theorem exists_table {batches : List InsertBatch} (stored : StoredAs lz4 schema tableDir batches) :
    ∃ table : Logical.Table schema, table.rows.map (List.map Logical.Datum.stored) =
      (batches.flatMap fun batch => batch.rows).map (List.map some) := by
  have types : ∀ row ∈ batches.flatMap (fun batch => batch.rows),
      List.Forall₂ (fun (c : ColumnSchema) (v : Value) => v.type = toArrow c.dataType)
        schema.columns row := by
    intro row member
    obtain ⟨batch, inside, here⟩ := List.mem_flatMap.mp member
    obtain ⟨entry, _, written⟩ := exists_of_mem_right stored inside
    exact row_types written here
  refine ⟨⟨(batches.flatMap fun batch => batch.rows).map (List.map datumOf), ?_⟩, ?_⟩
  · intro row member
    obtain ⟨cells, inside, rfl⟩ := List.mem_map.mp member
    exact List.forall₂_map_right_iff.mpr
      ((types cells inside).imp fun _ _ type => (datumOf_typed type).1)
  · rw [List.map_map]
    refine List.map_congr_left fun cells inside => ?_
    rw [Function.comp_apply, List.map_map]
    refine List.map_congr_left fun v member => ?_
    obtain ⟨c, _, type⟩ := exists_of_mem_right (types cells inside) member
    exact (datumOf_typed type).2

theorem stands_zip (names : List String) {cells : List Value} {row : List Logical.Datum}
    (same : row.map Logical.Datum.stored = cells.map some) :
    Stands (names.zip cells) (names.zip row) := by
  induction names generalizing cells row with
  | nil => exact .nil
  | cons name names ih =>
      cases cells with
      | nil =>
          rw [List.map_eq_nil_iff.mp same]
          exact .nil
      | cons v cells =>
          cases row with
          | nil => cases same
          | cons d row =>
              obtain ⟨here, rest⟩ := List.cons.inj same
              exact .cons ⟨rfl, here⟩ (ih rest)

/-- **What a query without aggregation returns is what it says**, of a table with the stored
rows. -/
theorem rowQuery_meaning (distinct : schema.Distinct) {I : Interpretation} (narrows : I.Narrows)
    {items : List (ColumnItem schema)} (nonempty : selectNames items ≠ [])
    {w : Option (WherePredicate schema)} (supported : ∀ v ∈ w, v.Supported)
    {batches : List InsertBatch} (stored : StoredAs lz4 schema tableDir batches)
    (rows : ∀ batch ∈ batches, 0 < batch.numRows) {table : Logical.Table schema}
    (same : table.rows.map (List.map Logical.Datum.stored) =
      (batches.flatMap fun batch => batch.rows).map (List.map some))
    {meant : List (List Logical.Datum)}
    (meaning : I.queryMeaning table (rowQuery schema items w none) = some meant) {workers : Nat}
    (positive : 0 < workers) :
    QueryYields lz4 schema (rowQuery schema items w none) tableDir workers fun returned =>
      ((returned.flatMap RecordBatch.rows).map (List.map some)).Perm
        (meant.map (List.map Logical.Datum.stored)) := by
  have each : List.Forall₂ Stands
      (batches.flatMap fun batch => tableRows schema batch.toRecordBatch)
      (table.rows.map ((schema.columns.map ColumnSchema.name).zip ·)) := by
    have rowwise := (forall₂_of_map_eq same).imp fun cells row =>
      stands_zip (schema.columns.map ColumnSchema.name)
    simp only [tableRows, ← List.map_flatMap]
    exact List.forall₂_map_left_iff.mpr (List.forall₂_map_right_iff.mpr rowwise)
  have typed : ∀ row ∈ batches.flatMap (fun batch => tableRows schema batch.toRecordBatch),
      RowTyped schema row := by
    intro row member c column v found
    obtain ⟨batch, inside, here⟩ := List.mem_flatMap.mp member
    obtain ⟨entry, _, written⟩ := exists_of_mem_right stored inside
    exact type_of_lookup distinct written here column found
  have said := queryMeaning_rowQuery narrows (fun v member => (supported v member).2) each typed
    meaning
  refine (rowQuery_yields distinct nonempty supported stored rows positive).mono
    fun returned answers => ?_
  have all : rowAnswers items w batches =
      ((batches.flatMap fun batch => tableRows schema batch.toRecordBatch).filter fun row =>
        w.all (WherePredicate.holds row)).map (selectCells (selectNames items)) := by
    rw [List.filter_flatMap, List.map_flatMap]
    rfl
  rw [said, ← all]
  exact answers.map (List.map some)

/-- What a SELECT does on a file system: it passes the checks and is planned; whatever the
schedule, it goes on until it ends, no worker panics and it returns Ok with batches of this kind;
and this is all that it can reply. -/
structure Answers (lz4 : Lz4) (schema : TableSchema) (disk : Disk) (query : Query)
    (P : List RecordBatch → Prop) : Prop where
  checked : checkStatement (.query query) schema = .ok ()
  ends : QueryYields lz4 schema query (disk.parts schema) nWorkers P
  replies : ∃ reply, RunSql lz4 schema disk (.query query) reply disk
  only : ∀ reply disk', RunSql lz4 schema disk (.query query) reply disk' →
    disk' = disk ∧ ∃ batches, reply = .ok (.selected batches) ∧ P batches

/-- **A query that comes to its end answers.** -/
theorem QueryYields.answers {query : Query} {P : List RecordBatch → Prop}
    (checked : checkStatement (.query query) schema = .ok ())
    (yields : QueryYields lz4 schema query (disk.parts schema) nWorkers P) :
    Answers lz4 schema disk query P := by
  refine ⟨checked, yields, ?_, fun reply disk' ran => ?_⟩
  · obtain ⟨root, start, planned, created, ⟨bound, safe⟩, returns⟩ := yields
    obtain ⟨events, g, steps, hungUp⟩ := exists_hungUp (fun events g steps =>
      (safe events g steps).2) (rfl : start.run lz4 [] = some start)
    obtain ⟨returned, result, _⟩ := returns _ g steps hungUp
    exact ⟨_, .select (by simp) checked root planned start created _ g steps _ result⟩
  · cases ran with
    | refused e failed => cases checked.symm.trans failed
    | insert i kind checked result disk' ran => cases kind
    | fails kind checked e failed =>
        obtain ⟨root, start, planned, _⟩ := yields
        cases planned.symm.trans failed
    | panics kind checked failed =>
        obtain ⟨root, start, planned, _⟩ := yields
        cases planned.symm.trans failed
    | select kind checked root planned start created events g ran result returned =>
        obtain ⟨batches, rfl, holds⟩ := yields.returned planned created ran returned
        exact ⟨rfl, batches, rfl, holds⟩

/-- `INSERT INTO t VALUES (TRUE)`. -/
def insertTruth : Statement := .insert (Dml.valuesInsert [[.value (.boolean true)]])

/-- `INSERT INTO t VALUES (5), (9)`. -/
def insertFiveAndNine : Statement :=
  .insert (Dml.valuesInsert [[.value (.number "5")], [.value (.number "9")]])

theorem eq_of_stored {d : Logical.Datum} {t : DataType} {n : t.Native}
    (stored : d.stored = some ⟨.data t, n⟩) : d = .typed t n := by
  cases d with
  | typed t' n' =>
      cases stored
      rfl
  | integer v => cases stored
  | float v => cases stored
  | null => cases stored

end TinyOlap
