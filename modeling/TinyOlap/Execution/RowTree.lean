import Mathlib.Data.Set.List
import TinyOlap.Execution.GatherResult

/-!
# Queries without aggregation

The tree of such a query is a scan, a filter if there is a predicate, and a projection on
columns. Alone or in a pool, a worker that runs the tree returns the selected cells of the
rows of its parts that satisfy the predicate, part after part and in the order in which
they were inserted (`rowBatches_rows`). Part skipping changes nothing, for a part that is
left out has no such row.
-/

set_option autoImplicit false

namespace TinyOlap.Execution

open Library Library.WorkPool Catalog Arrow Storage Physical

/-! ## The tree -/

/-- A scan with a filter on top if there is a predicate. -/
def filterTree (columns : List ColumnSchema) : Option PhysicalExpr → ExecutionPlan
  | none => scanPlan columns none
  | some predicate => .filter predicate (scanPlan columns (some predicate))

/-- The tree of a query without aggregation. -/
def rowTree (columns : List ColumnSchema) (predicate : Option PhysicalExpr)
    (names : List String) : ExecutionPlan :=
  .project (names.map .column) (filterTree columns predicate)

/-! ## What it makes of a part -/

section Batches

variable (lz4 : Lz4) (columns : List ColumnSchema) (predicate : Option PhysicalExpr)
  (names : List String)

/-- The batches of a part that is not left out. -/
def takenBatches (partDir : PartDir) : List RecordBatch :=
  if leavesOut predicate partDir then [] else partBatches lz4 columns partDir

def filteredBatches (partDir : PartDir) : List RecordBatch :=
  match predicate with
  | none => takenBatches lz4 columns none partDir
  | some p => (takenBatches lz4 columns (some p) partDir).filterMap (keptBatch p)

def rowBatches (partDir : PartDir) : List RecordBatch :=
  (filteredBatches lz4 columns predicate partDir).map (projectedBatch names)

end Batches

/-- The rows that a query without aggregation returns of a part. -/
def selectedRows (lz4 : Lz4) (schema : TableSchema) (predicate : Option PhysicalExpr)
    (names : List String) (partDir : PartDir) : List (List Value) :=
  ((partRows lz4 schema partDir).filter fun row => predicate.all (holds row)).map
    (selectCells names)

/-- A part that an accepted insert has added for a batch with a row. -/
def Filled (lz4 : Lz4) (schema : TableSchema) (partDir : PartDir) : Prop :=
  ∃ batch : RecordBatch, WrittenPart lz4 schema batch partDir ∧ 0 < batch.numRows

/-- The scan reads columns of the schema, among them those that are compared or selected. -/
structure Reads (schema : TableSchema) (columns : List ColumnSchema)
    (predicate : Option PhysicalExpr) (names : List String) : Prop where
  distinct : schema.Distinct
  nonempty : columns ≠ []
  known : ∀ c ∈ columns, c ∈ schema.columns
  selected : names ⊆ columns.map ColumnSchema.name
  evaluable : ∀ p ∈ predicate, Evaluable (columns.map Field.ofColumn) p
  noFloat : ∀ p ∈ predicate, ¬ ComparesFloat schema p

/-- A predicate depends on the columns it can be evaluated on. -/
theorem holds_congr {columns : List ColumnSchema} {p : PhysicalExpr}
    (evaluable : Evaluable (columns.map Field.ofColumn) p) {row row' : NamedRow}
    (same : ∀ name ∈ columns.map ColumnSchema.name, row.lookup name = row'.lookup name) :
    holds row p = holds row' p := by
  have operands : ∀ {e : PhysicalExpr} {t : DataType},
      operandType (columns.map Field.ofColumn) e = some t → operand row e = operand row' e := by
    intro e t type
    cases e with
    | column name =>
        refine same name ?_
        cases found : (columns.map Field.ofColumn).find? fun f => f.name = name with
        | none =>
            rw [operandType, found] at type
            cases type
        | some f =>
            obtain ⟨c, member, rfl⟩ := List.mem_map.mp (List.mem_of_find?_eq_some found)
            have named : (Field.ofColumn c).name = name := by simpa using List.find?_some found
            exact List.mem_map.mpr ⟨c, member, named⟩
    | literal lit => cases lit <;> rfl
    | compare left op right => cases type
    | logical left op right => cases type
  induction p with
  | column name => exact evaluable.elim
  | literal lit => exact evaluable.elim
  | compare left op right _ _ =>
      obtain ⟨_, t, typeLeft, typeRight⟩ := evaluable
      rw [holds, holds, operands typeLeft, operands typeRight]
  | logical left op right ihLeft ihRight =>
      cases op <;> rw [holds, holds, ihLeft evaluable.1, ihRight evaluable.2]

section Results

variable {lz4 : Lz4} {schema : TableSchema} {columns : List ColumnSchema}
  {predicate : Option PhysicalExpr} {names : List String} {partDir : PartDir}
  {parts : List PartDir}

theorem Reads.covered (reads : Reads schema columns predicate names) :
    columns.map ColumnSchema.name ⊆ schema.columns.map ColumnSchema.name :=
  List.map_subset _ reads.known

theorem Reads.someColumn (reads : Reads schema columns predicate names) : schema.columns ≠ [] := by
  obtain ⟨c, member⟩ := List.exists_mem_of_ne_nil _ reads.nonempty
  exact List.ne_nil_of_mem (reads.known c member)

/-- The batches that are read can be filtered and projected. -/
theorem Reads.taken (reads : Reads schema columns predicate names)
    (filled : Filled lz4 schema partDir) {b : RecordBatch}
    (member : b ∈ takenBatches lz4 columns predicate partDir) :
    0 < b.numRows ∧ b.fields = columns.map Field.ofColumn ∧ ∀ p ∈ predicate, Masked p b := by
  obtain ⟨batch, written, _⟩ := filled
  obtain ⟨_, each, _⟩ := partBatches_of_written reads.distinct written reads.nonempty reads.known
  rw [takenBatches] at member
  split at member
  · cases member
  · obtain ⟨row, fields⟩ := each b member
    exact ⟨row, fields, fun p inside => evaluatePredicate_eq (fields ▸ reads.evaluable p inside)⟩

/-- Filtering keeps the fields, and batches with a row. -/
theorem Reads.filtered (reads : Reads schema columns predicate names)
    (filled : Filled lz4 schema partDir) {b : RecordBatch}
    (member : b ∈ filteredBatches lz4 columns predicate partDir) :
    0 < b.numRows ∧ b.fields = columns.map Field.ofColumn := by
  cases predicate with
  | none =>
      obtain ⟨row, fields, _⟩ := reads.taken filled member
      exact ⟨row, fields⟩
  | some p =>
      obtain ⟨source, inside, keeps⟩ := List.mem_filterMap.mp member
      obtain ⟨_, fields, masked⟩ := reads.taken filled inside
      obtain ⟨row, same⟩ := keptBatch_eq_some (masked p rfl) keeps
      exact ⟨row, same.trans fields⟩

theorem Reads.present (reads : Reads schema columns predicate names) {b : RecordBatch}
    (fields : b.fields = columns.map Field.ofColumn) : ∀ name ∈ names, name ∈ b.names := by
  intro name member
  rw [RecordBatch.names, fields, List.map_map]
  exact reads.selected member

/-! ## Delivery -/

theorem Reads.scannable (reads : Reads schema columns predicate names)
    (filled : Filled lz4 schema partDir) :
    Scannable lz4 columns (leavesOut predicate) partDir := by
  intro _
  obtain ⟨batch, written, rows⟩ := filled
  obtain ⟨whole, holds, numRows, _⟩ := exists_partHolds reads.distinct written reads.known
  exact ⟨whole, holds, numRows ▸ rows⟩

theorem Reads.scanItems (reads : Reads schema columns predicate names)
    (filled : Filled lz4 schema partDir) :
    scanItems lz4 columns (leavesOut predicate) partDir =
      (takenBatches lz4 columns predicate partDir).map .ok := by
  obtain ⟨batch, written, _⟩ := filled
  obtain ⟨read, _⟩ := partBatches_of_written reads.distinct written reads.nonempty reads.known
  rw [Execution.scanItems, takenBatches]
  split
  · rfl
  · exact read

/-- What the scan delivers of some of the parts. -/
theorem Reads.scanned (reads : Reads schema columns predicate names)
    (filled : ∀ partDir ∈ parts, Filled lz4 schema partDir) :
    parts.flatMap (Execution.scanItems lz4 columns (leavesOut predicate)) =
      (parts.flatMap (takenBatches lz4 columns predicate)).map .ok := by
  rw [List.map_flatMap]
  exact List.flatMap_congr fun partDir member => reads.scanItems (filled partDir member)

theorem Reads.delivers_filter (reads : Reads schema columns predicate names)
    (filled : ∀ partDir ∈ parts, Filled lz4 schema partDir) :
    ∃ base weight, Delivers (ExecutionPlan.act lz4) (filterTree columns predicate) parts
        (fun handed => (handed.flatMap (filteredBatches lz4 columns predicate)).map .ok)
        base weight ∧
      Exhausts (ExecutionPlan.act lz4) (filterTree columns predicate) parts := by
  have scannable : ∀ partDir ∈ parts, Scannable lz4 columns (leavesOut predicate) partDir :=
    fun partDir member => reads.scannable (filled partDir member)
  have scans := @delivers_scanPlan lz4 columns predicate parts reads.nonempty scannable
  have exhausts : Exhausts (ExecutionPlan.act lz4) (scanPlan columns predicate) parts :=
    exhausts_scanPlan reads.nonempty scannable
  have inside : ∀ {handed : List PartDir}, handed.Sublist parts →
      ∀ partDir ∈ handed, Filled lz4 schema partDir := fun part partDir member =>
    filled partDir (part.subset member)
  cases predicate with
  | none =>
      refine ⟨_, _, scans.congr fun handed part => ?_, exhausts⟩
      exact reads.scanned (inside part)
  | some p =>
      have makes : ∀ handed : List PartDir, handed.Sublist parts →
          (filterExec p).result ()
            (handed.flatMap (Execution.scanItems lz4 columns (leavesOut (some p)))) =
          some ((handed.flatMap (filteredBatches lz4 columns (some p))).map .ok) := by
        intro handed part
        have masked : ∀ b ∈ handed.flatMap (takenBatches lz4 columns (some p)), Masked p b := by
          intro b member
          obtain ⟨partDir, here, taken⟩ := List.mem_flatMap.mp member
          exact (reads.taken (inside part partDir here) taken).2.2 p rfl
        rw [reads.scanned (inside part), filterExec_result masked, List.filterMap_flatMap]
        rfl
      let wrap : Unit → ExecutionPlan → ExecutionPlan := fun _ c => .filter p c
      have acts : ∀ x s, ExecutionPlan.act lz4 (wrap x s) =
          (filterExec p).onTop (ExecutionPlan.act lz4 s) wrap x s := fun _ _ => rfl
      have delivered := scans.operator makes acts
      have exhausted : Exhausts (ExecutionPlan.act lz4) (wrap () (scanPlan columns (some p)))
        parts :=
        Exhausts.operator scans makes acts (fun _ _ _ _ => rfl) exhausts
      exact ⟨_, _, delivered, exhausted⟩

/-- **What a worker delivers of a query without aggregation.** -/
theorem Reads.delivers (reads : Reads schema columns predicate names)
    (filled : ∀ partDir ∈ parts, Filled lz4 schema partDir) :
    ∃ base weight, Delivers (ExecutionPlan.act lz4) (rowTree columns predicate names) parts
        (fun handed => (handed.flatMap (rowBatches lz4 columns predicate names)).map .ok)
        base weight ∧
      Exhausts (ExecutionPlan.act lz4) (rowTree columns predicate names) parts := by
  obtain ⟨base, weight, filters, exhausts⟩ := reads.delivers_filter filled
  have makes : ∀ handed : List PartDir, handed.Sublist parts →
      (projectExec (names.map .column)).result ()
        ((handed.flatMap (filteredBatches lz4 columns predicate)).map .ok) =
      some ((handed.flatMap (rowBatches lz4 columns predicate names)).map .ok) := by
    intro handed part
    have present : ∀ b ∈ handed.flatMap (filteredBatches lz4 columns predicate),
        ∀ name ∈ names, name ∈ b.names := by
      intro b member
      obtain ⟨partDir, here, filtered⟩ := List.mem_flatMap.mp member
      exact reads.present (reads.filtered (filled partDir (part.subset here)) filtered).2
    rw [projectExec_result present, List.map_flatMap]
    rfl
  let wrap : Unit → ExecutionPlan → ExecutionPlan := fun _ c => .project (names.map .column) c
  have acts : ∀ x s, ExecutionPlan.act lz4 (wrap x s) =
      (projectExec (names.map .column)).onTop (ExecutionPlan.act lz4 s) wrap x s := fun _ _ => rfl
  have delivered := filters.operator makes acts
  have exhausted : Exhausts (ExecutionPlan.act lz4) (wrap () (filterTree columns predicate))
      parts :=
    Exhausts.operator filters makes acts (fun _ _ _ _ => rfl) exhausts
  exact ⟨_, _, delivered, exhausted⟩

/-! ## The rows -/

/-- The rows of a part that is left out do not satisfy the predicate. -/
theorem Reads.takenRows (reads : Reads schema columns predicate names)
    (filled : Filled lz4 schema partDir) :
    ((takenBatches lz4 columns predicate partDir).flatMap RecordBatch.namedRows).filter
        (fun row => predicate.all (holds row)) =
      ((partRows lz4 schema partDir).filter fun row => predicate.all (holds row)).map
        (restrictRow (columns.map ColumnSchema.name)) := by
  obtain ⟨batch, written, _⟩ := filled
  obtain ⟨_, _, rows⟩ := partBatches_of_written reads.distinct written reads.nonempty reads.known
  rw [partRows_of_written reads.distinct written reads.someColumn, takenBatches]
  split
  · rename_i skips
    cases predicate with
    | none => cases skips
    | some p =>
        have none :=
          holds_of_zoneMapCanSkip reads.distinct written.toZonedPart (reads.noFloat p rfl) skips
        have empty : ((tableRows schema batch).filter fun row => holds row p) = [] := by
          rw [List.filter_eq_nil_iff]
          intro row member
          rw [none row member]
          exact Bool.false_ne_true
        simp only [Option.all_some, empty]
        rfl
  · rw [rows, List.filter_map]
    congr 1
    refine List.filter_congr fun row member => ?_
    have present : HasNames (columns.map ColumnSchema.name) row := fun name inside =>
      hasNames_tableRows written member name (reads.covered inside)
    cases predicate with
    | none => rfl
    | some p =>
        exact holds_congr (reads.evaluable p rfl) fun name inside =>
          restrictRow_lookup present inside

/-- The filter leaves the matching rows of a part, with the columns that are read. -/
theorem Reads.filteredRows (reads : Reads schema columns predicate names)
    (filled : Filled lz4 schema partDir) :
    (filteredBatches lz4 columns predicate partDir).flatMap RecordBatch.namedRows =
      ((partRows lz4 schema partDir).filter fun row => predicate.all (holds row)).map
        (restrictRow (columns.map ColumnSchema.name)) := by
  rw [← reads.takenRows filled]
  cases predicate with
  | none => simp [filteredBatches]
  | some p => exact keptBatch_rows fun b member => (reads.taken filled member).2.2 p rfl

/-- The rows that the filter leaves of all parts. -/
theorem Reads.inputRows (reads : Reads schema columns predicate names)
    (filled : ∀ partDir ∈ parts, Filled lz4 schema partDir) :
    (parts.flatMap (filteredBatches lz4 columns predicate)).flatMap RecordBatch.namedRows =
      ((parts.flatMap (partRows lz4 schema)).filter fun row => predicate.all (holds row)).map
        (restrictRow (columns.map ColumnSchema.name)) := by
  rw [List.flatMap_assoc, List.filter_flatMap, List.map_flatMap]
  exact List.flatMap_congr fun partDir member => reads.filteredRows (filled partDir member)

/-- The rows of a part have the columns that are read. -/
theorem Reads.hasNames (reads : Reads schema columns predicate names)
    (filled : Filled lz4 schema partDir) {row : NamedRow}
    (member : row ∈ partRows lz4 schema partDir) :
    HasNames (columns.map ColumnSchema.name) row := by
  obtain ⟨batch, written, _⟩ := filled
  rw [partRows_of_written reads.distinct written reads.someColumn] at member
  intro name inside
  exact hasNames_tableRows written member name (reads.covered inside)

/-- **The batches of a part hold the selected cells of the matching rows**, and no batch is
empty. -/
theorem rowBatches_rows (reads : Reads schema columns predicate names)
    (filled : Filled lz4 schema partDir) :
    (rowBatches lz4 columns predicate names partDir).flatMap RecordBatch.rows =
      selectedRows lz4 schema predicate names partDir ∧
    ∀ b ∈ rowBatches lz4 columns predicate names partDir, 0 < b.numRows := by
  have projects : ∀ b ∈ filteredBatches lz4 columns predicate partDir,
      0 < (projectedBatch names b).numRows ∧
        (projectedBatch names b).rows = b.namedRows.map (selectCells names) := by
    intro b member
    obtain ⟨row, fields⟩ := reads.filtered filled member
    obtain ⟨_, numRows, rows⟩ := projectedBatch_eq (reads.present fields)
    exact ⟨numRows ▸ row, rows⟩
  constructor
  · rw [rowBatches, List.flatMap_map, List.flatMap_congr fun b member => (projects b member).2,
      ← List.map_flatMap, reads.filteredRows filled, List.map_map, selectedRows]
    refine List.map_congr_left fun row member => ?_
    exact selectCells_restrictRow (reads.hasNames filled (List.mem_of_mem_filter member))
      reads.selected
  · intro b member
    obtain ⟨source, inside, rfl⟩ := List.mem_map.mp member
    exact (projects source inside).1

/-! ## All workers -/

/-- What the root returns of batches without an error. -/
theorem returned_of_batches {root : RootExec} {g : GatherExec} {batches : List RecordBatch}
    (noMerge : root.merge = none) (received : g.returned = batches.map .ok)
    (hungUp : g.hungUp = true) : root.returned g = some (.ok batches) := by
  have collected : RootExec.collectBatches g.returned = .ok batches := by
    rw [received, RootExec.collectBatches, List.mapM_map]
    exact (Outcome.mapM_ok fun b _ => rfl).trans (congrArg Outcome.ok (List.map_id batches))
  rw [RootExec.returned, noMerge]
  simp only [collected, hungUp, if_true]

/-- Results among which there is no error are batches. -/
theorem exists_batches_of_perm {results : List BatchResult} {batches : List RecordBatch}
    (same : results.Perm (batches.map .ok)) :
    ∃ arrived : List RecordBatch, results = arrived.map .ok ∧ arrived.Perm batches := by
  obtain ⟨arrived, all⟩ : ∃ arrived : List RecordBatch, results = arrived.map .ok := by
    have inRange : results ∈ Set.range (List.map (Except.ok : RecordBatch → BatchResult)) := by
      rw [Set.range_list_map]
      intro result member
      obtain ⟨b, _, made⟩ := List.mem_map.mp (same.subset member)
      exact ⟨b, made⟩
    exact inRange.imp fun arrived same => same.symm
  have injective : (Except.ok : RecordBatch → BatchResult).Injective := fun _ _ => Except.ok.inj
  exact ⟨arrived, all, (List.map_perm_map_iff injective).mp (all ▸ same)⟩

/-- **What a gather returns of a query without aggregation**: the selected cells of the
matching rows of all parts, in some order, and no empty batch. -/
theorem Reads.gathers (reads : Reads schema columns predicate names)
    (filled : ∀ partDir ∈ parts, Filled lz4 schema partDir) {workers : Nat} (positive : 0 < workers)
    {events : List Event} {g : GatherExec}
    (ran : GatherExec.run lz4 (.init parts workers (rowTree columns predicate names)) events =
      some g)
    (hungUp : g.hungUp = true) :
    ∃ batches : List RecordBatch, g.returned = batches.map .ok ∧
      (batches.flatMap RecordBatch.rows).Perm
        (parts.flatMap (selectedRows lz4 schema predicate names)) ∧
      ∀ b ∈ batches, 0 < b.numRows := by
  obtain ⟨base, weight, delivers, exhausts⟩ := reads.delivers filled
  have each : Delivers (ExecutionPlan.act lz4) (rowTree columns predicate names) parts
      (List.flatMap fun partDir => (rowBatches lz4 columns predicate names partDir).map .ok)
      base weight :=
    delivers.congr fun handed _ => List.map_flatMap
  have received := received_perm_of_hungUp each exhausts positive ran hungUp
  rw [← List.map_flatMap] at received
  obtain ⟨batches, same, perm⟩ := exists_batches_of_perm received
  refine ⟨batches, same, ?_, ?_⟩
  · refine (perm.flatMap_right _).trans (.of_eq ?_)
    rw [List.flatMap_assoc]
    exact List.flatMap_congr fun partDir member =>
      (rowBatches_rows reads (filled partDir member)).1
  · intro b member
    obtain ⟨partDir, here, inside⟩ := List.mem_flatMap.mp (perm.subset member)
    exact (rowBatches_rows reads (filled partDir here)).2 b inside

/-- No schedule of workers that deliver goes on forever, and none gets stuck. -/
theorem ends_of_delivers {tree : ExecutionPlan} {result : List PartDir → List BatchResult}
    {base : Nat} {weight : PartDir → Nat}
    (delivers : Delivers (ExecutionPlan.act lz4) tree parts result base weight) (workers : Nat) :
    ∃ bound, ∀ events g, GatherExec.run lz4 (.init parts workers tree) events = some g →
      .crashed ∉ g.workers ∧ events.length ≤ bound ∧
        (g.hungUp = false → ∃ event g', GatherExec.run lz4 g [event] = some g') := by
  refine ⟨_, fun events g ran => ⟨not_crashed_of_run delivers ran, length_le_of_run delivers ran,
    fun going => ?_⟩⟩
  have room : 0 < channelBound := by decide
  obtain ⟨event, g', steps⟩ :=
    @exists_step _ _ _ (ExecutionPlan.act lz4) channelBound room g going
  exact ⟨event, g', by simp [GatherExec.run, run, steps]⟩

/-- No schedule of such a query goes on forever, and none gets stuck. -/
theorem Reads.ends (reads : Reads schema columns predicate names)
    (filled : ∀ partDir ∈ parts, Filled lz4 schema partDir) (workers : Nat) :
    ∃ bound, ∀ events g,
      GatherExec.run lz4 (.init parts workers (rowTree columns predicate names)) events = some g →
      .crashed ∉ g.workers ∧ events.length ≤ bound ∧
        (g.hungUp = false → ∃ event g', GatherExec.run lz4 g [event] = some g') := by
  obtain ⟨base, weight, delivers, _⟩ := reads.delivers filled
  exact ends_of_delivers delivers workers

end Results

end TinyOlap.Execution
