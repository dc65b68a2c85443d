import TinyOlap.Execution.FilterResult
import TinyOlap.Execution.TreeResult

/-!
# What a tree means

The code evaluates a predicate on a whole batch, and where it cannot, a filter returns an error:
also a filter that is always true. This is not the code but the yardstick for it. A filter is read
as it is written: of each batch it keeps the rows of which its predicate holds, and it hands on no
batch that it has emptied. The other operators are read as they run (`ExecutionPlan.meaning`).

What a tree makes is what it means, up to its first error (`ExecutionPlan.Sound.agrees`), if every
predicate has a column or is a literal. A filter whose predicate compares literals alone keeps at
most one row of a batch.
-/

set_option autoImplicit false

namespace TinyOlap.Execution

open Library Library.WorkPool Catalog Arrow Storage Physical

/-! ## Filters as they are written -/

/-- The rows of a batch of which a predicate holds, if there is one. -/
def heldBatch (predicate : PhysicalExpr) (batch : RecordBatch) : Option RecordBatch :=
  match batch.filter (batch.namedRows.map fun row => holds row predicate) with
  | .ok held => if 0 < held.numRows then some held else none
  | _ => none

/-- What is kept of a result. -/
def heldAnswer (predicate : PhysicalExpr) : BatchResult → Option BatchResult
  | .ok batch => (heldBatch predicate batch).map .ok
  | .error e => some (.error e)

/-- What a filter answers to a result, if it does not pull again. -/
def filterAnswer (predicate : PhysicalExpr) : BatchResult → Option BatchResult
  | .ok batch =>
      match filterBatch predicate batch with
      | .ok filtered => if 0 < filtered.numRows then some (.ok filtered) else none
      | .err e => some (.error e)
      | .panic => none
  | .error e => some (.error e)

def IsError (result : BatchResult) : Prop := ∃ e, result = .error e

/-- A predicate that is evaluated row by row, or not at all. -/
def RowWise (predicate : PhysicalExpr) : Prop :=
  hasColumn predicate = true ∨ ∃ lit, predicate = .literal lit

section Filters

variable {predicate : PhysicalExpr} {batch held : RecordBatch}

/-- **A filter keeps the rows of which its predicate holds**, in order. -/
theorem heldBatch_rows : ((heldBatch predicate batch).map RecordBatch.namedRows).getD [] =
    batch.namedRows.filter fun row => holds row predicate := by
  have short : (batch.namedRows.map fun row => holds row predicate).length ≤ batch.numRows := by
    simp
  obtain ⟨filtered, made, fields, rows⟩ := RecordBatch.filter_eq_ok short
  have kept : filtered.namedRows = batch.namedRows.filter fun row => holds row predicate := by
    rw [RecordBatch.namedRows, rows, RecordBatch.names, fields, ← RecordBatch.keep_map]
    exact RecordBatch.keep_map_eq_filter _ _
  rw [heldBatch, made, ← kept]
  by_cases row : 0 < filtered.numRows
  · simp [row]
  · have none : filtered.namedRows = [] := by
      rw [← List.length_eq_zero_iff, RecordBatch.namedRows_length]
      omega
    simp [row, none]

theorem heldBatch_eq_some (kept : heldBatch predicate batch = some held) :
    held.fields = batch.fields ∧ 0 < held.numRows ∧ held.numRows ≤ batch.numRows := by
  unfold heldBatch at kept
  split at kept
  · rename_i filtered made
    split at kept
    · rename_i row
      cases kept
      unfold RecordBatch.filter at made
      split at made
      · cases made
      · cases made
        exact ⟨rfl, row, (keep_sublist _ _).length_le.trans List.length_range.le⟩
    · cases kept
  · cases kept

/-- No row is kept if the predicate holds of none. -/
theorem heldBatch_eq_none (fails : ∀ row ∈ batch.namedRows, holds row predicate = false) :
    heldBatch predicate batch = none := by
  cases kept : heldBatch predicate batch with
  | none => rfl
  | some held =>
      have rows := @heldBatch_rows predicate batch
      rw [kept, Option.map_some, Option.getD_some, List.filter_eq_nil_iff.mpr fun row member => by
        simp [fails row member], ← List.length_eq_zero_iff, RecordBatch.namedRows_length] at rows
      exact ((heldBatch_eq_some kept).2.1.ne' rows).elim

theorem keep_replicate {α : Type} (l : List α) : keep (List.replicate l.length true) l = l := by
  induction l with
  | nil => rfl
  | cons v l ih => simp [List.replicate_succ, keep, ih]

/-- A predicate that holds of all rows keeps them all. -/
theorem heldBatch_eq_self (row : 0 < batch.numRows)
    (all : ∀ row ∈ batch.namedRows, holds row predicate = true) :
    heldBatch predicate batch = some batch := by
  have mask : (batch.namedRows.map fun row => holds row predicate) =
      List.replicate batch.numRows true := by
    rw [← RecordBatch.namedRows_length]
    exact List.eq_replicate_iff.mpr ⟨by simp, by simpa using all⟩
  have same : batch.filter (List.replicate batch.numRows true) = .ok batch := by
    rw [RecordBatch.filter, if_neg (by simp)]
    congr 1
    refine RecordBatch.ext rfl ?_ ?_
    · refine (List.map_congr_left fun a member => ?_).trans (List.map_id _)
      have length : a.values.length = batch.numRows := batch.lengths a member
      rw [ArrayRef.filter, ← length, keep_replicate]
      rfl
    · have count := keep_replicate (List.range batch.numRows)
      rw [List.length_range] at count
      simp [count]
  rw [heldBatch, mask, same]
  exact if_pos row

/-- **Where a predicate can be evaluated, a filter keeps what it says.** -/
theorem filterAnswer_eq (rowWise : RowWise predicate) {filtered : RecordBatch}
    (makes : filterBatch predicate batch = .ok filtered) :
    filterAnswer predicate (.ok batch) = heldAnswer predicate (.ok batch) := by
  obtain ⟨mask, evaluated, made⟩ := Outcome.bind_eq_ok.mp makes
  have made := Outcome.mapErr_eq_ok.mp made
  rcases rowWise with column | ⟨lit, rfl⟩
  · obtain ⟨_, rfl⟩ | ⟨noColumn, _⟩ := mask_of_evaluatePredicate evaluated
    · simp only [filterAnswer, makes, heldAnswer, heldBatch, made]
      by_cases row : 0 < filtered.numRows <;> simp [row]
    · rw [column] at noColumn
      cases noColumn
  · cases evaluated

theorem filterExec_result_of_clear (clear : namesNull predicate = false)
    (items : List BatchResult) :
    (filterExec predicate).result () items = some (items.filterMap (filterAnswer predicate)) := by
  refine Operator.result_eq_filterMap (fun _ => rfl) rfl fun i _ => ?_
  cases i with
  | error e => rfl
  | ok batch =>
      simp only [filterExec, filterAnswer]
      cases makes : filterBatch predicate batch with
      | ok filtered => by_cases row : 0 < filtered.numRows <;> simp [row]
      | err e => rfl
      | panic => exact (filterBatch_ne_panic clear batch makes).elim

/-- **A filter returns what it says**, up to the first batch on which its predicate cannot be
evaluated. -/
theorem filterAnswer_agrees (clear : namesNull predicate = false) (rowWise : RowWise predicate)
    (items : List BatchResult) :
    AgreesUntil IsError (items.filterMap (filterAnswer predicate))
      (items.filterMap (heldAnswer predicate)) := by
  induction items with
  | nil => exact .refl []
  | cons i rest ih =>
      have same : ∀ {answer : Option BatchResult}, filterAnswer predicate i = answer →
          heldAnswer predicate i = answer →
          AgreesUntil IsError ((i :: rest).filterMap (filterAnswer predicate))
            ((i :: rest).filterMap (heldAnswer predicate)) := by
        intro answer here there
        cases answer with
        | none => rwa [List.filterMap_cons_none here, List.filterMap_cons_none there]
        | some k =>
            rw [List.filterMap_cons_some here, List.filterMap_cons_some there]
            exact ih.append [k]
      cases i with
      | error e => exact same rfl rfl
      | ok batch =>
          cases makes : filterBatch predicate batch with
          | ok filtered => exact same (filterAnswer_eq rowWise makes) rfl
          | err e =>
              have answer : filterAnswer predicate (.ok batch) = some (.error e) := by
                simp only [filterAnswer, makes]
              rw [List.filterMap_cons_some answer]
              exact .inr ⟨[], .error e, _, _, ⟨e, rfl⟩, rfl, rfl⟩
          | panic => exact (filterBatch_ne_panic clear batch makes).elim

end Filters

/-! ## Trees as they are written -/

namespace ExecutionPlan

/-- **What a tree means**, of a list of parts. A scan that leaves out parts leaves them out. -/
def meaning (lz4 : Lz4) : ExecutionPlan → List PartDir → Option (List BatchResult)
  | fullScan s, parts => some (parts.flatMap (scanItems lz4 s.columns fun _ => false))
  | zoneMapScan s, parts =>
      some (parts.flatMap (scanItems lz4 s.columns fun partDir =>
        zoneMapCanSkip (loadZoneMap partDir) s.skipPredicate))
  | filter predicate child, parts =>
      (meaning lz4 child parts).map (List.filterMap (heldAnswer predicate))
  | project projections child, parts =>
      (meaning lz4 child parts).bind ((projectExec projections).result ())
  | limit n emitted child, parts => (meaning lz4 child parts).bind ((limitExec n).result emitted)
  | hashAggregate s child, parts => (meaning lz4 child parts).bind (hashAggregateExec.result s)

def aggregates : ExecutionPlan → Bool
  | fullScan _ | zoneMapScan _ => false
  | filter _ child | project _ child | limit _ _ child => aggregates child
  | hashAggregate _ _ => true

/-- The filters are evaluated row by row, and stand on no aggregation: as they do in a query, whose
WHERE clause is read before its rows are grouped. -/
def RowFilters : ExecutionPlan → Prop
  | fullScan _ | zoneMapScan _ => True
  | filter predicate child => RowWise predicate ∧ aggregates child = false ∧ RowFilters child
  | project _ child | limit _ _ child | hashAggregate _ child => RowFilters child

end ExecutionPlan

/-- What an operator that hands on errors makes of results that agree up to an error agrees up to
that error. -/
theorem agrees_result {X : Type} {op : Operator X BatchResult BatchResult} {x : X}
    {items items' made made' : List BatchResult}
    (passes : ∀ x e, ∃ y, op.item x (.error e) = .ret (some (.error e)) y)
    (agrees : AgreesUntil IsError items items') (makes : op.result x items = some made)
    (makes' : op.result x items' = some made') : AgreesUntil IsError made made' := by
  refine agrees.result (fun x i isError => ?_) makes makes'
  obtain ⟨e, rfl⟩ := isError
  obtain ⟨y, answer⟩ := passes x e
  exact ⟨_, y, answer, e, rfl⟩

section Trees

variable {lz4 : Lz4} {schema : TableSchema} {parts : List PartDir} {tree : ExecutionPlan}
  {fields : List Field} {items : List BatchResult}

/-- What is kept has the fields and no more rows. -/
theorem heldAnswer_items (predicate : PhysicalExpr) (has : ∀ i ∈ items, HasFields fields i) :
    (∀ i ∈ items.filterMap (heldAnswer predicate), HasFields fields i) ∧
      rowCount (items.filterMap (heldAnswer predicate)) ≤ rowCount items := by
  induction items with
  | nil => exact ⟨by simp, Nat.le_refl _⟩
  | cons i rest ih =>
      obtain ⟨typed, fewer⟩ := ih fun j member => has j (by simp [member])
      simp only [rowCount, List.map_cons, List.sum_cons] at fewer ⊢
      cases answer : heldAnswer predicate i with
      | none =>
          rw [List.filterMap_cons_none answer]
          exact ⟨typed, by omega⟩
      | some k =>
          have here : HasFields fields k ∧ resultRows k ≤ resultRows i := by
            cases i with
            | error e =>
                cases answer
                exact ⟨hasFields_error fields e, Nat.le_refl _⟩
            | ok batch =>
                obtain ⟨held, kept, rfl⟩ := Option.map_eq_some_iff.mp answer
                obtain ⟨same, _, less⟩ := heldBatch_eq_some kept
                refine ⟨fun b this => ?_, less⟩
                cases this
                exact same.trans (has (.ok batch) (by simp) batch rfl)
          rw [List.filterMap_cons_some answer, List.map_cons, List.sum_cons]
          exact ⟨List.forall_mem_cons.mpr ⟨here.1, typed⟩, Nat.add_le_add here.2 fewer⟩

/-- **A sound tree means something**, of any parts, and what it makes agrees with that up to its
first error. -/
theorem ExecutionPlan.Sound.agrees (distinct : schema.Distinct) (sound : tree.Sound schema)
    (filters : tree.RowFilters) (filled : ∀ partDir ∈ parts, Filled lz4 schema partDir)
    (few : tree.wholes + storedRows lz4 schema parts ≤ maxGroups) :
    ∃ items meant, tree.results lz4 parts = some items ∧ tree.meaning lz4 parts = some meant ∧
      AgreesUntil IsError items meant ∧ (∀ i ∈ meant, HasFields tree.outputFields i) ∧
      rowCount meant ≤ tree.wholes + storedRows lz4 schema parts := by
  induction tree with
  | fullScan s =>
      obtain ⟨typed, fewer⟩ := result_scan distinct sound filled fun _ => false
      exact ⟨_, _, rfl, rfl, .refl _, typed, fewer.trans (Nat.le_add_left _ _)⟩
  | zoneMapScan s =>
      obtain ⟨typed, fewer⟩ := result_scan distinct sound filled fun partDir =>
        zoneMapCanSkip (loadZoneMap partDir) s.skipPredicate
      exact ⟨_, _, rfl, rfl, .refl _, typed, fewer.trans (Nat.le_add_left _ _)⟩
  | filter predicate child ih =>
      obtain ⟨items, meant, reads, means, agrees, typed, fewer⟩ := ih sound.2 filters.2.2 few
      obtain ⟨typed', fewer'⟩ := heldAnswer_items predicate typed
      refine ⟨items.filterMap (filterAnswer predicate), _, ?_,
        by rw [meaning, means, Option.map_some], ?_, typed', fewer'.trans fewer⟩
      · rw [results, reads, Option.bind_some, filterExec_result_of_clear sound.1]
      · exact (agrees_result (fun _ _ => ⟨(), rfl⟩) agrees
          (filterExec_result_of_clear sound.1 _) (filterExec_result_of_clear sound.1 _)).trans
          (filterAnswer_agrees sound.1 filters.1 meant)
  | project projections child ih =>
      obtain ⟨all, made, _⟩ := @ExecutionPlan.Sound.exists_results lz4 schema parts
        (.project projections child) distinct sound filled few
      obtain ⟨items, meant, reads, means, agrees, typed, fewer⟩ := ih sound filters few
      obtain ⟨out, makes, typed', fewer'⟩ := result_project projections typed
      rw [results, reads, Option.bind_some] at made
      exact ⟨all, out, by rw [results, reads]; exact made, by rw [meaning, means]; exact makes,
        agrees_result (fun _ _ => ⟨(), rfl⟩) agrees made makes, typed', fewer'.trans fewer⟩
  | limit limit emitted child ih =>
      obtain ⟨all, made, _⟩ := @ExecutionPlan.Sound.exists_results lz4 schema parts
        (.limit limit emitted child) distinct sound filled few
      obtain ⟨items, meant, reads, means, agrees, typed, fewer⟩ := ih sound filters few
      obtain ⟨out, makes, typed', fewer'⟩ := result_limit limit emitted typed
      rw [results, reads, Option.bind_some] at made
      exact ⟨all, out, by rw [results, reads]; exact made, by rw [meaning, means]; exact makes,
        agrees_result (fun emitted _ => ⟨emitted, rfl⟩) agrees made makes, typed',
        fewer'.trans fewer⟩
  | hashAggregate s child ih =>
      obtain ⟨all, made, _⟩ := @ExecutionPlan.Sound.exists_results lz4 schema parts
        (.hashAggregate s child) distinct sound filled few
      rw [wholes] at few ⊢
      obtain ⟨items, meant, reads, means, agrees, typed, fewer⟩ :=
        ih sound.2 filters (by omega)
      obtain ⟨out, makes, typed', fewer'⟩ := result_aggregate sound.1 typed (by omega)
      rw [results, reads, Option.bind_some] at made
      exact ⟨all, out, by rw [results, reads]; exact made, by rw [meaning, means]; exact makes,
        agrees_result (fun s _ => ⟨s, rfl⟩) agrees made makes, typed', by omega⟩

/-! ## Batches with rows -/

/-- A result is an error, or a batch with a row. -/
def HasRow (result : BatchResult) : Prop := ∀ batch, result = .ok batch → 0 < batch.numRows

theorem hasRow_scan {s : FullScanExec} (distinct : schema.Distinct) (scans : ScansSome schema s)
    (filled : ∀ partDir ∈ parts, Filled lz4 schema partDir) (skip : PartDir → Bool) :
    ∀ i ∈ parts.flatMap (scanItems lz4 s.columns skip), HasRow i := by
  intro i member batch same
  obtain ⟨partDir, inside, here⟩ := List.mem_flatMap.mp member
  obtain ⟨stored, written, _⟩ := filled partDir inside
  obtain ⟨read, each, _⟩ := partBatches_of_written distinct written scans.nonempty scans.known
  rw [scanItems] at here
  split at here
  · cases here
  · rw [read] at here
    obtain ⟨b, source, rfl⟩ := List.mem_map.mp here
    cases same
    exact (each _ source).1

/-- An operator that answers a batch that has a row with such a batch, while it goes on. -/
theorem hasRow_result {X : Type} {op : Operator X BatchResult BatchResult} {x : X}
    {all : List BatchResult}
    (answers : ∀ x i, op.gate x = false → HasRow i → (∃ y, op.item x i = .again y) ∨
      ∃ k y, op.item x i = .ret (some k) y ∧ HasRow k)
    (last : ∀ x, ∃ y, op.last x = .ret none y) (has : ∀ i ∈ items, HasRow i)
    (makes : op.result x items = some all) : ∀ i ∈ all, HasRow i := by
  obtain ⟨all', made, each, _⟩ := @Operator.exists_result _ _ _ op
    (fun _ rest _ => ∀ i ∈ rest, HasRow i) HasRow (fun _ => 0) (fun _ => 0)
    (fun inside i rest x has going => by
      have later : ∀ i ∈ rest, HasRow i := fun j member => has j (by simp [member])
      rcases answers x i going (has i (by simp)) with ⟨y, answer⟩ | ⟨k, y, answer, row⟩
      · exact .inl ⟨y, answer, later⟩
      · exact .inr ⟨k, y, inside, answer, row, later, Nat.le_of_eq (Nat.zero_add _)⟩)
    (fun _ x _ _ => .inl (last x)) 0 items x has
  cases made.symm.trans makes
  exact each

/-- **Without an aggregation, a tree means batches with a row each.** -/
theorem ExecutionPlan.Sound.hasRow (distinct : schema.Distinct) (sound : tree.Sound schema)
    (plain : tree.aggregates = false) (filled : ∀ partDir ∈ parts, Filled lz4 schema partDir)
    (means : tree.meaning lz4 parts = some items) : ∀ i ∈ items, HasRow i := by
  induction tree generalizing items with
  | fullScan s =>
      cases means
      exact hasRow_scan distinct sound filled _
  | zoneMapScan s =>
      cases means
      exact hasRow_scan distinct sound filled _
  | filter predicate child ih =>
      obtain ⟨below, _, rfl⟩ := Option.map_eq_some_iff.mp means
      intro i member batch same
      obtain ⟨answered, _, here⟩ := List.mem_filterMap.mp member
      subst same
      cases answered with
      | error e => cases here
      | ok whole =>
          obtain ⟨held, kept, same⟩ := Option.map_eq_some_iff.mp here
          cases same
          exact (heldBatch_eq_some kept).2.1
  | project projections child ih =>
      obtain ⟨below, means', makes⟩ := Option.bind_eq_some_iff.mp means
      refine hasRow_result (fun x i _ row => ?_) (fun _ => ⟨_, rfl⟩) (ih sound plain means') makes
      cases i with
      | error e => exact .inr ⟨_, _, rfl, nofun⟩
      | ok batch =>
          simp only [projectExec]
          cases made : projectBatch projections batch with
          | ok projected =>
              refine .inr ⟨_, _, rfl, fun b same => ?_⟩
              cases same
              exact numRows_projectBatch made ▸ row batch rfl
          | err e => exact .inr ⟨_, _, rfl, nofun⟩
          | panic => exact (projectBatch_ne_panic projections batch made).elim
  | limit limit emitted child ih =>
      obtain ⟨below, means', makes⟩ := Option.bind_eq_some_iff.mp means
      refine hasRow_result (fun x i going row => ?_) (fun _ => ⟨_, rfl⟩) (ih sound plain means')
        makes
      have more : x < limit := by simpa [limitExec] using going
      cases i with
      | error e => exact .inr ⟨_, _, rfl, nofun⟩
      | ok batch =>
          simp only [limitExec]
          split
          · exact .inr ⟨_, _, rfl, row⟩
          · refine .inr ⟨_, _, rfl, fun b same => ?_⟩
            cases same
            simp only [RecordBatch.slice]
            omega
  | hashAggregate s child ih => cases plain

end Trees

end TinyOlap.Execution
