import TinyOlap.Execution.Expr

/-!
# Filter, project and limit

These operators work batch by batch. A filter returns the rows that satisfy its
predicate and pulls again when there is none, so that it never returns an empty batch;
a projection selects columns; a limit passes batches on, cuts the one that crosses the
limit, and from then on stops without pulling.
-/

set_option autoImplicit false

namespace TinyOlap.Execution

open Library Library.WorkPool Catalog Arrow Physical

/-! ## The operators -/

/-- The rows of a batch that pass a predicate: first the mask, then the rows. -/
def filterBatch (predicate : PhysicalExpr) (batch : RecordBatch) : ExecResult RecordBatch := do
  let mask ← evaluatePredicate predicate batch
  (batch.filter mask).mapErr .arrow

/-- `FilterExec`. -/
def filterExec (predicate : PhysicalExpr) : Operator Unit BatchResult BatchResult where
  gate _ := false
  item
    | (), .ok batch =>
        match filterBatch predicate batch with
        | .ok filtered =>
            if 0 < filtered.numRows then .ret (some (.ok filtered)) ()
            -- this batch is filtered to zero rows, pull the next one
            else .again ()
        | .err e => .ret (some (.error e)) ()
        | .panic => .panic
    | (), .error e => .ret (some (.error e)) ()
  last _ := .ret none ()

/-- Select columns. A projection must be a column. -/
def projectBatch (projections : List PhysicalExpr) (batch : RecordBatch) :
    ExecResult RecordBatch := do
  let indices ← projections.mapM fun
    | .column name => (batch.indexOf name).mapErr .arrow
    | _ => .err (.invalidData "ProjectExec supports only bare column references")
  (batch.project indices).mapErr .arrow

/-- `ProjectExec`. -/
def projectExec (projections : List PhysicalExpr) : Operator Unit BatchResult BatchResult where
  gate _ := false
  item
    | (), .ok batch => Turn.returning () (projectBatch projections batch)
    | (), .error e => .ret (some (.error e)) ()
  last _ := .ret none ()

/-- `LimitExec`. The state is the number of emitted rows. -/
def limitExec (limit : Nat) : Operator Nat BatchResult BatchResult where
  gate emitted := decide (limit ≤ emitted)
  item
    | emitted, .ok batch =>
        let remaining := limit - emitted
        if batch.numRows ≤ remaining then .ret (some (.ok batch)) (emitted + batch.numRows)
        else .ret (some (.ok (batch.slice 0 remaining))) limit
    | emitted, .error e => .ret (some (.error e)) emitted
  last emitted := .ret none emitted

/-! ## Filter -/

/-- The batch a filter returns for a batch, if any. -/
def keptBatch (predicate : PhysicalExpr) (batch : RecordBatch) : Option RecordBatch :=
  match filterBatch predicate batch with
  | .ok filtered => if 0 < filtered.numRows then some filtered else none
  | _ => none

/-- The mask of a predicate says of each row of a batch whether the predicate holds. -/
def Masked (predicate : PhysicalExpr) (batch : RecordBatch) : Prop :=
  evaluatePredicate predicate batch = .ok (batch.namedRows.map fun row => holds row predicate)

theorem filterBatch_eq {predicate : PhysicalExpr} {batch : RecordBatch}
    (masked : Masked predicate batch) :
    ∃ filtered, filterBatch predicate batch = .ok filtered ∧ filtered.fields = batch.fields ∧
      filtered.namedRows = batch.namedRows.filter fun row => holds row predicate := by
  have short : (batch.namedRows.map fun row => holds row predicate).length ≤ batch.numRows := by
    simp
  obtain ⟨filtered, made, fields, rows⟩ := RecordBatch.filter_eq_ok short
  refine ⟨filtered, ?_, fields, ?_⟩
  · rw [filterBatch, masked, Outcome.ok_bind, made, Outcome.mapErr_ok]
  · rw [RecordBatch.namedRows, rows, RecordBatch.names, fields, ← RecordBatch.keep_map]
    exact RecordBatch.keep_map_eq_filter _ _

/-- What a filter returns of batches that it can filter. -/
theorem filterExec_of_filters {predicate : PhysicalExpr} {batches : List RecordBatch}
    (filters : ∀ b ∈ batches, ∃ filtered, filterBatch predicate b = .ok filtered) :
    (filterExec predicate).result () (batches.map .ok) =
      some ((batches.filterMap (keptBatch predicate)).map .ok) := by
  let answer : BatchResult → Option BatchResult
    | .ok b => (keptBatch predicate b).map .ok
    | .error e => some (.error e)
  rw [Operator.result_eq_filterMap (g := answer) (fun _ => rfl) rfl]
  · rw [List.filterMap_map, List.map_filterMap]
    rfl
  · intro i member
    obtain ⟨b, source, rfl⟩ := List.mem_map.mp member
    obtain ⟨filtered, made⟩ := filters b source
    simp only [filterExec, answer, keptBatch, made]
    by_cases row : 0 < filtered.numRows <;> simp [row]

/-- What a filter returns of batches on which its predicate can be evaluated. -/
theorem filterExec_result {predicate : PhysicalExpr} {batches : List RecordBatch}
    (masked : ∀ b ∈ batches, Masked predicate b) :
    (filterExec predicate).result () (batches.map .ok) =
      some ((batches.filterMap (keptBatch predicate)).map .ok) := by
  apply filterExec_of_filters
  intro b member
  obtain ⟨filtered, made, _⟩ := filterBatch_eq (masked b member)
  exact ⟨filtered, made⟩

/-- **A filter keeps exactly the rows that satisfy its predicate**, in order. -/
theorem keptBatch_rows {predicate : PhysicalExpr} {batches : List RecordBatch}
    (masked : ∀ b ∈ batches, Masked predicate b) :
    (batches.filterMap (keptBatch predicate)).flatMap RecordBatch.namedRows =
      (batches.flatMap RecordBatch.namedRows).filter fun row => holds row predicate := by
  induction batches with
  | nil => rfl
  | cons b batches ih =>
      obtain ⟨filtered, made, _, rows⟩ := filterBatch_eq (masked b (by simp))
      have rest := ih fun c member => masked c (by simp [member])
      rw [List.flatMap_cons, List.filter_append, ← rows, ← rest]
      by_cases row : 0 < filtered.numRows
      · rw [List.filterMap_cons_some (by simp only [keptBatch, made, if_pos row]; rfl),
          List.flatMap_cons]
      · have none : filtered.namedRows = [] := by
          rw [← List.length_eq_zero_iff, RecordBatch.namedRows_length]
          omega
        rw [List.filterMap_cons_none (by simp only [keptBatch, made, if_neg row]), none,
          List.nil_append]

/-- The batches of a filter have a row, and the fields of the batches it reads. -/
theorem keptBatch_eq_some {predicate : PhysicalExpr} {batch kept : RecordBatch}
    (masked : Masked predicate batch) (keeps : keptBatch predicate batch = some kept) :
    0 < kept.numRows ∧ kept.fields = batch.fields := by
  obtain ⟨filtered, made, fields, _⟩ := filterBatch_eq masked
  simp only [keptBatch, made] at keeps
  split at keeps
  · cases keeps
    exact ⟨‹_›, fields⟩
  · cases keeps

/-! ## Project -/

/-- The cells of a row under some names. -/
def selectCells (names : List String) (row : NamedRow) : List Value :=
  names.filterMap fun name => row.lookup name

/-- A projection on columns that are there selects their cells in every row. -/
theorem projectBatch_eq {names : List String} {batch : RecordBatch}
    (present : ∀ name ∈ names, name ∈ batch.names) :
    ∃ projected, projectBatch (names.map .column) batch = .ok projected ∧
      projected.fields = names.filterMap (fun name => batch.fields.find? fun f => f.name = name) ∧
      projected.columns = names.filterMap batch.columnByName ∧
      projected.numRows = batch.numRows ∧
      projected.rows = batch.namedRows.map (selectCells names) := by
  have found : ∀ name ∈ names, ∃ idx f, batch.fields.findIdx? (fun f => f.name = name) = some idx ∧
      batch.fields[idx]? = some f ∧ batch.fields.find? (fun f => f.name = name) = some f := by
    intro name member
    obtain ⟨g, inside, rfl⟩ := List.mem_map.mp (present name member)
    cases first : batch.fields.find? fun f => f.name = g.name with
    | none => simpa using List.find?_eq_none.mp first g inside
    | some f =>
        obtain ⟨idx, position, here⟩ := RecordBatch.findIdx?_of_find? first
        exact ⟨idx, f, position, here, rfl⟩
  let position : String → Option Nat := fun name =>
    batch.fields.findIdx? fun f => f.name = name
  have indices : (names.map PhysicalExpr.column).mapM (fun
      | .column name => (batch.indexOf name).mapErr ExecutionError.arrow
      | _ => .err (.invalidData "ProjectExec supports only bare column references")) =
      .ok (names.filterMap position) := by
    have each : ∀ name ∈ names, (position name).isSome := by
      intro name member
      obtain ⟨idx, _, here, _⟩ := found name member
      exact Option.isSome_iff_exists.mpr ⟨idx, here⟩
    rw [List.mapM_map, ← Outcome.mapM_ofOption
      (e := fun name => ExecutionError.arrow (.unknownField name)) each]
    congr 1
    funext name
    simp only [Function.comp_apply, RecordBatch.indexOf, position]
    cases batch.fields.findIdx? fun f => f.name = name <;> rfl
  have inRange : ∀ i ∈ names.filterMap position, i < batch.fields.length := by
    intro i member
    obtain ⟨name, _, here⟩ := List.mem_filterMap.mp member
    exact (List.findIdx?_eq_some_iff_getElem.mp here).1
  obtain ⟨projected, made, fields, columns, count, rows⟩ := RecordBatch.project_eq_ok inRange
  refine ⟨projected, ?_, ?_, ?_, count, ?_⟩
  · rw [projectBatch, indices, Outcome.ok_bind, made, Outcome.mapErr_ok]
  · rw [fields, List.filterMap_filterMap]
    refine List.filterMap_congr fun name member => ?_
    obtain ⟨idx, f, here, field, first⟩ := found name member
    simp only [position, here, Option.bind_some, field, first]
  · rw [columns, List.filterMap_filterMap]
    refine List.filterMap_congr fun name member => ?_
    obtain ⟨idx, f, here, field, _⟩ := found name member
    obtain ⟨a, column, _⟩ := RecordBatch.getElem?_columns field
    simp only [position, here, Option.bind_some, column, RecordBatch.columnByName_eq here column]
  · rw [rows, RecordBatch.namedRows, List.map_map]
    refine List.map_congr_left fun row inside => ?_
    rw [List.filterMap_filterMap]
    refine List.filterMap_congr fun name member => ?_
    obtain ⟨idx, f, here, _, _⟩ := found name member
    have same : batch.names.length = row.length := by
      rw [RecordBatch.names, List.length_map, ← batch.columns_length]
      exact (RecordBatch.forall₂_of_mem_rowsOf inside).length_eq
    simp only [position, here, Option.bind_some]
    refine (RecordBatch.lookup_zip same ?_).symm
    rw [RecordBatch.names, List.findIdx?_map]
    exact here

/-- The batch a projection on columns makes of a batch. -/
def projectedBatch (names : List String) (batch : RecordBatch) : RecordBatch :=
  match projectBatch (names.map .column) batch with
  | .ok projected => projected
  | _ => batch

theorem projectedBatch_eq {names : List String} {batch : RecordBatch}
    (present : ∀ name ∈ names, name ∈ batch.names) :
    projectBatch (names.map .column) batch = .ok (projectedBatch names batch) ∧
      (projectedBatch names batch).numRows = batch.numRows ∧
      (projectedBatch names batch).rows = batch.namedRows.map (selectCells names) := by
  obtain ⟨projected, made, _, _, numRows, rows⟩ := projectBatch_eq present
  have same : projectedBatch names batch = projected := by rw [projectedBatch, made]
  exact ⟨same ▸ made, same ▸ numRows, same ▸ rows⟩

/-- What a projection returns of batches that have its columns. -/
theorem projectExec_result {names : List String} {batches : List RecordBatch}
    (present : ∀ b ∈ batches, ∀ name ∈ names, name ∈ b.names) :
    (projectExec (names.map .column)).result () (batches.map .ok) =
      some ((batches.map (projectedBatch names)).map .ok) := by
  let answer : BatchResult → Option BatchResult
    | .ok b => some (.ok (projectedBatch names b))
    | .error e => some (.error e)
  rw [Operator.result_eq_filterMap (g := answer) (fun _ => rfl) rfl]
  · rw [List.filterMap_map, List.map_map, ← List.filterMap_eq_map]
    rfl
  · intro i member
    obtain ⟨b, source, rfl⟩ := List.mem_map.mp member
    simp only [projectExec, answer, (projectedBatch_eq (present b source)).1, Turn.returning]

/-! ## Limit -/

/-- The first batches up to a number of rows, the last of them cut. -/
def limitBatches : Nat → List RecordBatch → List RecordBatch
  | _, [] => []
  | remaining, b :: rest =>
      if remaining = 0 then []
      else if b.numRows ≤ remaining then b :: limitBatches (remaining - b.numRows) rest
      else [b.slice 0 remaining]

/-- **A limit returns the first rows.** -/
theorem limitBatches_rows (remaining : Nat) (batches : List RecordBatch) :
    (limitBatches remaining batches).flatMap RecordBatch.rows =
      (batches.flatMap RecordBatch.rows).take remaining := by
  induction batches generalizing remaining with
  | nil => simp [limitBatches]
  | cons b rest ih =>
      rw [limitBatches]
      by_cases none : remaining = 0
      · simp [none]
      · rw [if_neg none]
        by_cases whole : b.numRows ≤ remaining
        · have all : b.rows.take remaining = b.rows :=
            List.take_of_length_le ((RecordBatch.rows_length b).symm ▸ whole)
          rw [if_pos whole, List.flatMap_cons, ih, List.flatMap_cons, List.take_append, all,
            RecordBatch.rows_length]
        · have cut : remaining - b.rows.length = 0 := by
            rw [RecordBatch.rows_length]
            omega
          rw [if_neg whole, List.flatMap_singleton, RecordBatch.rows_slice, List.drop_zero,
            List.flatMap_cons, List.take_append, cut, List.take_zero, List.append_nil]

theorem limitExec_result {limit emitted : Nat} (inside : emitted ≤ limit)
    (batches : List RecordBatch) :
    (limitExec limit).result emitted (batches.map .ok) =
      some ((limitBatches (limit - emitted) batches).map .ok) := by
  suffices fed : ∃ y, (limitExec limit).feed emitted (batches.map .ok) =
      some (y, (limitBatches (limit - emitted) batches).map .ok) by
    obtain ⟨y, fed⟩ := fed
    rw [Operator.result, fed, Option.bind_some]
    by_cases stopped : limit ≤ y <;> simp [Operator.close, limitExec, stopped]
  induction batches generalizing emitted with
  | nil => exact ⟨emitted, by simp [Operator.feed, limitBatches]⟩
  | cons b rest ih =>
      rw [List.map_cons, Operator.feed, limitBatches]
      by_cases stopped : limit ≤ emitted
      · exact ⟨emitted, by simp [limitExec, stopped, Nat.sub_eq_zero_of_le stopped]⟩
      · rw [if_neg (by simpa [limitExec] using stopped), if_neg (by omega)]
        simp only [limitExec]
        by_cases whole : b.numRows ≤ limit - emitted
        · have room : emitted + b.numRows ≤ limit := by omega
          obtain ⟨y, fed⟩ := ih room
          refine ⟨y, ?_⟩
          rw [if_pos whole, if_pos whole, Nat.sub_sub]
          simpa [limitExec] using fed
        · refine ⟨limit, ?_⟩
          rw [if_neg whole, if_neg whole]
          have gated : (limitExec limit).gate limit = true := by simp [limitExec]
          have fed := Operator.feed_of_gate gated (rest.map .ok)
          simpa [limitExec] using fed

end TinyOlap.Execution
