import TinyOlap.RowPlan

/-!
# Reading back what was inserted

A query without WHERE and LIMIT should return all inserted rows, whatever the schedule of
the workers. It does if every inserted batch has a row. An insert of no rows is accepted as
well, and leaves a part without granules; a scan that opens such a part asks its readers for
the first granule all the same, and the thread of its worker panics.
-/

set_option autoImplicit false

namespace TinyOlap.Execution

open Library Library.WorkPool Catalog Arrow Storage Physical

variable {lz4 : Lz4}

/-! ## A part without a row -/

/-- A granule past the last mark is a panic. -/
theorem readGranule_outOfRange {reader : ColumnReaderKind} {col : ColumnSchema} {idx : Nat}
    (outOfRange : reader.granuleCount ≤ idx) : reader.readGranule lz4 col idx = .panic := by
  have noMark : ∀ {γ : Type} {r : BlockReader γ}, r.granuleCount ≤ idx → r.marks[idx]? = none :=
    fun past => List.getElem?_eq_none past
  cases reader with
  | numeric r =>
      obtain ⟨name, dataType⟩ := col
      cases dataType with
      | fixed t =>
          simp only [ColumnReaderKind.readGranule, ColumnReader.readGranule, Storage.readGranule,
            noMark outOfRange]
          rfl
      | str => rfl
  | str r =>
      simp only [ColumnReaderKind.readGranule, StringColumnReader.readGranule,
        Storage.readGranule, noMark outOfRange]
      rfl

/-- A scan opens a part without a row, and panics at its first granule. -/
theorem openPart_empty {s : FullScanExec} {partDir : PartDir} {whole : RecordBatch}
    (nonempty : s.columns ≠ []) (holds : PartHolds lz4 s.columns partDir whole)
    (empty : whole.numRows = 0) :
    ∃ opened, s.openPart partDir = .again opened ∧ opened.act lz4 = .turn .panic := by
  obtain ⟨r, rest, opens, _, count⟩ := open_first nonempty holds
  obtain ⟨c, columns, cols⟩ := List.exists_cons_of_ne_nil nonempty
  have none : r.granuleCount ≤ 0 := by
    rw [count, empty]
    exact Nat.le_of_eq (BlockLayout.granuleCount_zero granuleSize_pos)
  have failed : readColumns lz4 0 (s.columns.zip (r :: rest)) =
      (.panic, r :: (columns.zip rest).map Prod.snd) := by
    rw [cols, List.zip_cons_cons, readColumns, readGranule_outOfRange none]
  refine ⟨{ s with readers := r :: rest, granuleCount := r.granuleCount, granuleIdx := 0 }, ?_, ?_⟩
  · rw [FullScanExec.openPart, opens]
  · simp only [FullScanExec.act, FullScanExec.actSkipping, FullScanExec.readNext, failed]
    rfl

/-! ## A projection over a scan -/

/-- A projection on columns over a full scan. -/
def ProjectsScan (columns : List ColumnSchema) (names : List String) (plan : ExecutionPlan) :
    Prop :=
  ∃ s : FullScanExec, s.columns = columns ∧ plan = .project (names.map .column) (.fullScan s)

/-- The scan keeps its columns. -/
theorem keeps_columns (s : FullScanExec) (work : Option PartDir) :
    ((s.act lz4).answer work).Keeps (fun s' => s'.columns = s.columns) fun _ => True := by
  have returns : ∀ (s' : FullScanExec) (result : ExecResult RecordBatch), s'.columns = s.columns →
      (Turn.returning s' result).Keeps (fun s' => s'.columns = s.columns) fun _ => True := by
    intro s' result same
    cases result with
    | ok b => exact ⟨same, fun _ _ => trivial⟩
    | err e => exact ⟨same, fun _ _ => trivial⟩
    | panic => trivial
  unfold FullScanExec.act FullScanExec.actSkipping
  split
  · cases work with
    | none => exact ⟨rfl, fun _ _ => trivial⟩
    | some partDir =>
        simp only [Act.answer, Bool.false_eq_true, if_false, FullScanExec.openPart]
        split
        · trivial
        · exact rfl
        · exact ⟨rfl, fun _ _ => trivial⟩
        · trivial
  · rw [Act.answer, FullScanExec.readNext]
    split
    · exact returns _ _ rfl
    · exact ⟨rfl, fun _ _ => trivial⟩
    · trivial

theorem keeps_projectsScan {columns : List ColumnSchema} {names : List String}
    (plan : ExecutionPlan) (work : Option PartDir) (projects : ProjectsScan columns names plan) :
    ((plan.act lz4).answer work).Keeps (ProjectsScan columns names) fun _ => True := by
  obtain ⟨s, cols, rfl⟩ := projects
  have scan : (((ExecutionPlan.fullScan s).act lz4).answer work).Keeps
      (fun c => ∃ s' : FullScanExec, s'.columns = columns ∧ c = .fullScan s') fun _ => True := by
    rw [ExecutionPlan.act, Act.answer_map]
    refine Turn.Keeps.map ((keeps_columns s work).mono (fun s' same => ?_) fun _ _ => trivial)
    exact ⟨s', same.trans cols, rfl⟩
  rw [ExecutionPlan.act]
  refine Operator.keeps_onTop scan (by simp [projectExec]) ?_ ?_ ?_
  · rintro c ⟨s', same, rfl⟩
    exact ⟨s', same, rfl⟩
  · rintro i c _ ⟨s', same, rfl⟩
    cases i with
    | error e => exact ⟨⟨s', same, rfl⟩, fun _ _ => trivial⟩
    | ok batch =>
        simp only [projectExec]
        cases projectBatch (names.map .column) batch with
        | ok b => exact ⟨⟨s', same, rfl⟩, fun _ _ => trivial⟩
        | err e => exact ⟨⟨s', same, rfl⟩, fun _ _ => trivial⟩
        | panic => trivial
  · rintro c ⟨s', same, rfl⟩
    exact ⟨⟨s', same, rfl⟩, fun _ _ => trivial⟩

/-- **A schedule on which a worker panics.** The first worker alone is handed the parts up to
one without a row. -/
theorem exists_crash {schema : TableSchema} {columns : List ColumnSchema} {names : List String}
    {before after : List PartDir} {partDir : PartDir} {whole : RecordBatch} {workers : Nat}
    (reads : Reads schema columns none names)
    (filled : ∀ partDir ∈ before, Filled lz4 schema partDir)
    (holds : PartHolds lz4 columns partDir whole) (empty : whole.numRows = 0)
    (positive : 0 < workers) :
    ∃ events g, run (ExecutionPlan.act lz4) channelBound
        (.init (before ++ partDir :: after) workers (rowTree columns none names)) events = some g ∧
      .crashed ∈ g.workers := by
  obtain ⟨base, weight, delivers, exhausts⟩ := reads.delivers filled
  obtain ⟨n, sent, s, k, runs, asks⟩ := exists_asking delivers exhausts
  have fresh : (List.replicate workers
      (.running (rowTree columns none names) : Phase ExecutionPlan BatchResult))[0]? =
        some (.running (rowTree columns none names)) := List.getElem?_replicate_of_lt positive
  obtain ⟨events, next, left, ran⟩ := @exists_run_of_runs PartDir ExecutionPlan BatchResult
    (ExecutionPlan.act lz4) _ channelBound _ 0 _ _ _ _
    (.init (before ++ partDir :: after) workers (rowTree columns none names)) (by decide) fresh
    rfl runs ⟨_, rfl⟩ nofun
  have worker : ∀ phase : Phase ExecutionPlan BatchResult,
      ((List.replicate workers (.running (rowTree columns none names))).set 0 phase)[0]? =
        some phase := fun phase =>
    List.getElem?_set_self (by rwa [List.length_replicate])
  have next' : (before ++ partDir :: after)[next]? = some partDir := by
    rw [← List.head?_drop]
    exact (congrArg List.head? left).trans (by simp [Pool.init])
  -- the worker that asks is still a projection over a scan
  have initial : ProjectsScan columns names (rowTree columns none names) := ⟨_, rfl, rfl⟩
  obtain ⟨scan, cols, rfl⟩ := (Pool.Holds.run keeps_projectsScan (Pool.Holds.init initial)
    ran).running 0 s (worker _)
  obtain ⟨_, below, scanAsks, rfl⟩ := Operator.onTop_eq_nextWork asks
  obtain ⟨answer, opens, rfl⟩ := Act.map_eq_nextWork scanAsks
  obtain ⟨opened, again, panics⟩ :=
    @openPart_empty lz4 scan partDir whole (cols ▸ reads.nonempty) (cols ▸ holds) empty
  have answered : answer (some partDir) = .again opened := by
    rw [FullScanExec.act, FullScanExec.actSkipping] at opens
    split at opens
    · cases opens
      exact again
    · cases opens
  have crashes : ExecutionPlan.act lz4
      (.project (names.map .column) (.fullScan opened)) = .turn .panic := by
    rw [ExecutionPlan.act, ExecutionPlan.act, panics]
    rfl
  refine ⟨events ++ [.work 0, .work 0], ?_⟩
  rw [run_append, ran]
  simp only [Option.bind_some, run, step, Pool.init, worker, asks, next', answered, Turn.map,
    Operator.react, Turn.phase, List.set_set, crashes]
  exact ⟨_, rfl, List.mem_of_getElem? (worker .crashed)⟩

end TinyOlap.Execution

namespace TinyOlap

open Library Library.WorkPool Catalog Arrow Storage Frontend Physical Execution

section ReadBack

variable {lz4 : Lz4} {schema : TableSchema} {batches : List InsertBatch} {w : TableWriter}

/-- A part was written for no rows if reading it back gives none. -/
theorem rowless_iff (distinct : schema.Distinct) (columns : schema.columns ≠ [])
    {batch : RecordBatch} {partDir : PartDir} (written : WrittenPart lz4 schema batch partDir) :
    (partRows lz4 schema partDir).isEmpty = true ↔ batch.numRows = 0 := by
  rw [partRows_of_written distinct written columns, List.isEmpty_iff_length_eq_zero, tableRows,
    List.length_map, RecordBatch.rows_length]

/-- **When every accepted insert stays readable.** Take a table whose columns have distinct names
without a slash. After any sequence of accepted inserts, a query of some columns without WHERE and
LIMIT returns Ok with every inserted row exactly once under every schedule, and no worker panics,
if and only if every inserted batch had a row. -/
theorem readsBack_iff (distinct : schema.Distinct) (plain : schema.PlainNames)
    {around : Surroundings} {items : List (ColumnItem schema)}
    (nonempty : selectNames items ≠ [])
    (accepted : insertAll lz4 (.open schema (.fresh around)) batches = some w) {workers : Nat}
    (positive : 0 < workers) :
    QueryYields lz4 schema (rowQuery schema items none none) w.parts workers (fun returned =>
      (returned.flatMap RecordBatch.rows).Perm (rowAnswers items none batches)) ↔
    ∀ batch ∈ batches, 0 < batch.numRows := by
  obtain ⟨columns, reads, ran⟩ := runSelect_rowQuery (w := none) distinct nonempty (by simp)
  have table := storedAs_of_insertAll distinct plain accepted
  obtain ⟨order, perm, stored⟩ := table.exists_order
  have source : ∀ partDir ∈ listParts w.parts, ∃ batch ∈ order,
      WrittenPart lz4 schema batch.toRecordBatch partDir := fun partDir member =>
    exists_of_mem_left stored member
  constructor
  · rintro ⟨root, start, planned, created, ⟨_, safe⟩, _⟩ batch member
    rw [ran] at planned
    cases planned
    rw [GatherExec.new, if_neg (Nat.ne_of_gt positive)] at created
    cases created
    refine Nat.pos_of_ne_zero fun empty => ?_
    obtain ⟨partDir, part, written⟩ := exists_of_mem_right stored (perm.mem_iff.mpr member)
    -- the first part without a row
    have some : ((listParts w.parts).find? fun d => (partRows lz4 schema d).isEmpty).isSome :=
      List.find?_isSome.mpr
        ⟨partDir, part, (rowless_iff distinct reads.someColumn written).mpr empty⟩
    obtain ⟨first, found⟩ := Option.isSome_iff_exists.mp some
    obtain ⟨rowless, before, after, split, filled⟩ := List.find?_eq_some_iff_append.mp found
    obtain ⟨batch, _, written⟩ := source first (split ▸ by simp)
    obtain ⟨whole, holds, numRows, _⟩ := exists_partHolds distinct written reads.known
    obtain ⟨events, g, crashes, crashed⟩ := @exists_crash lz4 schema columns _ before after _ _
      workers reads (by
        intro d inside
        obtain ⟨batch, _, written⟩ := source d (split ▸ List.mem_append_left _ inside)
        refine ⟨batch.toRecordBatch, written, Nat.pos_of_ne_zero fun none => ?_⟩
        have rows := (rowless_iff distinct reads.someColumn written).mpr none
        have noRows := filled d inside
        rw [rows] at noRows
        cases noRows) holds
      (numRows.trans ((rowless_iff distinct reads.someColumn written).mp rowless)) positive
    rw [← split] at crashes
    exact (safe events g crashes).1 crashed
  · exact fun rows => rowQuery_yields distinct nonempty (by simp) table rows positive

end ReadBack

/-! ## A row that is lost -/

/-- A batch with one row. -/
def oneFlag : InsertBatch where
  fields := [⟨"flag", .data .bool⟩]
  columns := [⟨.data .bool, [false]⟩]
  numRows := 1
  typed := rfl
  lengths := by decide
  offsets := by decide

theorem runSelect_flags (tableDir : PartList) :
    runSelect (.query (rowQuery flagSchema [.star] none none)) flagSchema tableDir =
      .ok ⟨listParts tableDir, .project [.column "flag"] flagScan, none⟩ := by
  have columns : queryColumns (selectNames ([.star] : List (ColumnItem flagSchema)))
      (none : Option (WherePredicate flagSchema)) = ["flag"] := by
    simp [queryColumns, orderedSet, selectNames, ColumnItem.names, flagSchema]
  have planned := @planSelect_rowQuery flagSchema [.star] none (by simp)
  rw [columns] at planned
  rw [runSelect, planned]
  rfl

/-- An insert of no rows after an insert of one row: the only worker panics at the last part,
which is handed out first, and the query returns Ok without the row. -/
theorem row_lost_after_empty_insert : ∃ w root start g,
    insertAll Lz4.literals (.open flagSchema .dataDir) [oneFlag, noFlags] = some w ∧
    runSelect (.query (rowQuery flagSchema [.star] none none)) flagSchema w.parts = .ok root ∧
    GatherExec.new root.parts 1 root.child = .ok start ∧
    start.run Lz4.literals [.work 0, .work 0, .disconnect] = some g ∧
    g.hungUp = true ∧ .crashed ∈ g.workers ∧ root.returned g = some (.ok []) := by
  obtain ⟨w, first, second, accepted, parts, g, ran, hungUp, crashed, nothing⟩ :
      ∃ w first second,
        insertAll Lz4.literals (.open flagSchema .dataDir) [oneFlag, noFlags] = some w ∧
        w.parts = [(partName 0, first), (partName 1, second)] ∧
        ∃ g, GatherExec.run Lz4.literals
            (.init [second, first] 1 (.project [.column "flag"] flagScan))
            [.work 0, .work 0, .disconnect] = some g ∧
          g.hungUp = true ∧ .crashed ∈ g.workers ∧ g.returned = [] :=
    ⟨_, _, _, rfl, rfl, _, rfl, rfl, List.mem_cons_self, rfl⟩
  refine ⟨w, _, _, g, accepted, runSelect_flags _, rfl, ?_, hungUp, crashed,
    returned_of_batches rfl nothing hungUp⟩
  rw [parts, listParts_two]
  exact ran

/-- The row is read back if it is the only insert. -/
theorem readsBack_iff_one : ∃ w,
    insertAll Lz4.literals (.open flagSchema .dataDir) [oneFlag] = some w ∧
    QueryYields Lz4.literals flagSchema (rowQuery flagSchema [.star] none none) w.parts 1
      fun returned => (returned.flatMap RecordBatch.rows).Perm [[⟨.data .bool, false⟩]] := by
  obtain ⟨w, accepted⟩ : ∃ w,
      insertAll Lz4.literals (.open flagSchema .dataDir) [oneFlag] = some w := ⟨_, rfl⟩
  refine ⟨w, accepted,
    (readsBack_iff (by decide) (by decide) (by decide) accepted Nat.one_pos).mpr ?_⟩
  intro batch member
  cases List.mem_singleton.mp member
  exact Nat.one_pos

end TinyOlap
