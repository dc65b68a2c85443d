import Mathlib.Data.List.Flatten
import TinyOlap.Execution.OutputFields
import TinyOlap.Execution.RowTree
import TinyOlap.Library.Quota

/-!
# Workers with a limit

A plan with a limit is copied to every worker, and so is the limit: each worker returns the first
rows of its own parts, up to the limit, and stops (`Reads.capped`). What all of them return
together are rows of the query without the limit, no row twice (`Reads.gathers_limited`), but
there may be more of them than the limit.
-/

set_option autoImplicit false

namespace TinyOlap.Execution

open Library Library.WorkPool Catalog Arrow Storage Physical

/-! ## The end of the parts -/

/-- There is no aggregation in the tree. -/
def ExecutionPlan.Streams : ExecutionPlan → Prop
  | .fullScan _ | .zoneMapScan _ => True
  | .filter _ child | .project _ child | .limit _ _ child => child.Streams
  | .hashAggregate .. => False

theorem keeps_streams (lz4 : Lz4) {plan : ExecutionPlan} (streams : plan.Streams)
    (work : Option PartDir) :
    ((plan.act lz4).answer work).Keeps ExecutionPlan.Streams fun _ => True := by
  induction plan with
  | fullScan s =>
      rw [ExecutionPlan.act, Act.answer_map]
      exact (Turn.keeps_true _).map
  | zoneMapScan s =>
      rw [ExecutionPlan.act, Act.answer_map]
      exact (Turn.keeps_true _).map
  | filter predicate child ih =>
      rw [ExecutionPlan.act]
      exact Operator.keeps_wrapped (ih streams) streams fun _ _ inside => inside
  | project projections child ih =>
      rw [ExecutionPlan.act]
      exact Operator.keeps_wrapped (ih streams) streams fun _ _ inside => inside
  | limit limit emitted child ih =>
      rw [ExecutionPlan.act]
      exact Operator.keeps_wrapped (ih streams) streams fun _ _ inside => inside
  | hashAggregate s child ih => exact streams.elim

/-- **Without an aggregation the end of the parts is the end**: a tree that is told that there
are no more returns none. -/
theorem quits_of_streams {lz4 : Lz4} {plan : ExecutionPlan} (streams : plan.Streams)
    (k : Option PartDir → Turn ExecutionPlan BatchResult) (asks : plan.act lz4 = .nextWork k) :
    ∃ s, k none = .ret none s := by
  have scans : ∀ {skip : PartDir → Bool} {s : FullScanExec}
      {k : Option PartDir → Turn FullScanExec BatchResult},
      s.actSkipping lz4 skip = .nextWork k → ∃ s, k none = .ret none s := by
    intro skip s k asks
    unfold FullScanExec.actSkipping at asks
    split at asks
    · cases asks
      exact ⟨s, rfl⟩
    · cases asks
  induction plan generalizing k with
  | fullScan s =>
      obtain ⟨k, asked, rfl⟩ := Act.map_eq_nextWork asks
      obtain ⟨s, ends⟩ := scans asked
      exact ⟨.fullScan s, congrArg (Turn.map _) ends⟩
  | zoneMapScan s =>
      obtain ⟨k, asked, rfl⟩ := Act.map_eq_nextWork asks
      obtain ⟨k, below, rfl⟩ := Act.map_eq_nextWork asked
      obtain ⟨s, ends⟩ := scans below
      exact ⟨_, congrArg (fun t => Turn.map _ (Turn.map _ t)) ends⟩
  | filter predicate child ih =>
      exact Operator.quits_onTop ⟨(), rfl⟩ (ih streams) asks
  | project projections child ih =>
      exact Operator.quits_onTop ⟨(), rfl⟩ (ih streams) asks
  | limit limit emitted child ih =>
      exact Operator.quits_onTop ⟨emitted, rfl⟩ (ih streams) asks
  | hashAggregate s child ih => exact streams.elim

/-! ## Rows that are sent -/

theorem sum_resultRows (batches : List RecordBatch) :
    ((batches.map Except.ok).map resultRows).sum = (batches.flatMap RecordBatch.rows).length := by
  rw [List.map_map, List.length_flatMap]
  exact congrArg List.sum (List.map_congr_left fun b _ => (RecordBatch.rows_length b).symm)

/-- A limit counts the rows that it hands on. -/
theorem feed_limitExec {limit emitted counted : Nat} {pulled handed : List BatchResult}
    (inside : emitted ≤ limit)
    (fed : (limitExec limit).feed emitted pulled = some (counted, handed)) :
    counted = emitted + (handed.map resultRows).sum := by
  induction pulled generalizing emitted handed with
  | nil =>
      cases fed
      rfl
  | cons result rest ih =>
      rw [Operator.feed] at fed
      split at fed
      · cases fed
        rfl
      · rename_i going
        have below : emitted < limit := by simpa [limitExec] using going
        cases result with
        | error e =>
            obtain ⟨⟨_, later⟩, fed', same⟩ := Option.map_eq_some_iff.mp fed
            cases same
            rw [ih inside fed', List.map_cons, List.sum_cons, resultRows, Nat.zero_add]
        | ok b =>
            by_cases whole : b.numRows ≤ limit - emitted
            · simp only [limitExec, if_pos whole] at fed
              obtain ⟨⟨_, later⟩, fed', same⟩ := Option.map_eq_some_iff.mp fed
              cases same
              rw [ih (by omega) fed', List.map_cons, List.sum_cons, resultRows, Nat.add_assoc]
            · simp only [limitExec, if_neg whole] at fed
              obtain ⟨⟨_, later⟩, fed', same⟩ := Option.map_eq_some_iff.mp fed
              cases same
              have cut : (b.slice 0 (limit - emitted)).numRows = limit - emitted := by
                rw [← RecordBatch.rows_length, RecordBatch.rows_slice, List.drop_zero,
                  List.length_take, RecordBatch.rows_length]
                omega
              have rest := ih le_rfl fed'
              rw [rest, List.map_cons, List.sum_cons]
              simp only [resultRows, cut]
              omega

/-! ## What a worker delivers -/

section Results

variable {lz4 : Lz4} {schema : TableSchema} {columns : List ColumnSchema}
  {predicate : Option PhysicalExpr} {names : List String} {parts : List PartDir}

theorem streams_rowTree : (rowTree columns predicate names).Streams := by
  cases predicate <;> trivial

/-- The batches of some parts, up to a number of rows. -/
def cappedBatches (lz4 : Lz4) (columns : List ColumnSchema) (predicate : Option PhysicalExpr)
    (names : List String) (limit : Nat) (parts : List PartDir) : List RecordBatch :=
  limitBatches limit (parts.flatMap (rowBatches lz4 columns predicate names))

theorem Reads.cappedRows (reads : Reads schema columns predicate names)
    (filled : ∀ partDir ∈ parts, Filled lz4 schema partDir) (limit : Nat) :
    (cappedBatches lz4 columns predicate names limit parts).flatMap RecordBatch.rows =
      (parts.flatMap (selectedRows lz4 schema predicate names)).take limit := by
  rw [cappedBatches, limitBatches_rows, List.flatMap_assoc]
  exact congrArg _ (List.flatMap_congr fun partDir member =>
    (rowBatches_rows reads (filled partDir member)).1)

/-- **What a worker delivers with a limit**: the first rows of its parts, up to the limit. -/
theorem Reads.capped (reads : Reads schema columns predicate names)
    (filled : ∀ partDir ∈ parts, Filled lz4 schema partDir) (limit : Nat) :
    ∃ base weight, Delivers (ExecutionPlan.act lz4)
      (.limit limit 0 (rowTree columns predicate names))
        parts (fun handed => (cappedBatches lz4 columns predicate names limit handed).map .ok)
        base weight ∧
      Capped (ExecutionPlan.act lz4) (.limit limit 0 (rowTree columns predicate names)) parts
        (fun handed => (cappedBatches lz4 columns predicate names limit handed).map .ok) limit
        resultRows (fun partDir => (selectedRows lz4 schema predicate names partDir).length) := by
  obtain ⟨base, weight, rows, exhausts⟩ := reads.delivers filled
  let wrap : Nat → ExecutionPlan → ExecutionPlan := .limit limit
  have makes : ∀ handed : List PartDir, handed.Sublist parts →
      (limitExec limit).result 0
          ((handed.flatMap (rowBatches lz4 columns predicate names)).map .ok) =
        some ((cappedBatches lz4 columns predicate names limit handed).map .ok) :=
    fun handed _ => limitExec_result (Nat.zero_le limit) _
  have acts : ∀ x s, ExecutionPlan.act lz4 (wrap x s) =
      (limitExec limit).onTop (ExecutionPlan.act lz4 s) wrap x s := fun _ _ => rfl
  refine ⟨_, _, rows.operator makes acts, fun handed part => ?_, fun part runs => ?_,
    fun part runs asks => ?_⟩
  · have inside : ∀ partDir ∈ handed, Filled lz4 schema partDir := fun partDir member =>
      filled partDir (part.subset member)
    rw [sum_resultRows, reads.cappedRows inside, List.length_take, List.length_flatMap]
  · -- a worker that has not seen the end of the parts has stopped at the limit
    rcases exhausted_or_stopped rows makes acts exhausts part runs with
      told | ⟨pulled, counted, fed, gated⟩
    · cases told
    · have all : limit ≤ counted := by simpa [limitExec] using gated
      rwa [feed_limitExec (Nat.zero_le limit) fed, Nat.zero_add] at all
  · have start : (wrap 0 (rowTree columns predicate names)).Streams :=
      @streams_rowTree columns predicate names
    exact quits_of_streams (runs.keeps (fun _ work streams => keeps_streams lz4 streams work)
      start _ rfl) _ asks

/-- **What a gather returns with a limit**: rows of the query without the limit, no row twice. -/
theorem Reads.gathers_limited (reads : Reads schema columns predicate names)
    (filled : ∀ partDir ∈ parts, Filled lz4 schema partDir) {limit workers : Nat}
    {events : List Event} {g : GatherExec}
    (ran : GatherExec.run lz4
      (.init parts workers (.limit limit 0 (rowTree columns predicate names))) events = some g)
    (hungUp : g.hungUp = true) :
    ∃ batches : List RecordBatch, g.returned = batches.map .ok ∧
      (batches.flatMap RecordBatch.rows).Subperm
        (parts.flatMap (selectedRows lz4 schema predicate names)) ∧
      (batches.flatMap RecordBatch.rows).length = g.receivedSize resultRows := by
  obtain ⟨base, weight, delivers, _⟩ := reads.capped filled limit
  obtain ⟨log, logWorks, logWorkers, sentWorkers, each, _⟩ :=
    received_of_hungUp delivers ran hungUp
  have part : (log.map Prod.snd).Sublist parts := logWorks ▸ List.take_sublist _ _
  have arrive : g.returned.Perm (((List.range workers).flatMap fun w =>
      cappedBatches lz4 columns predicate names limit (ofWorker w log)).map .ok) := by
    refine (perm_flatMap_ofWorker sentWorkers).trans (.of_eq ?_)
    rw [List.map_flatMap]
    exact List.flatMap_congr fun w member => each w (List.mem_range.mp member)
  obtain ⟨batches, same, perm⟩ := exists_batches_of_perm arrive
  refine ⟨batches, same, ?_, ?_⟩
  · have first : ((List.range workers).flatMap fun w =>
        (cappedBatches lz4 columns predicate names limit (ofWorker w log)).flatMap
          RecordBatch.rows).Sublist
        ((List.range workers).flatMap fun w =>
          (ofWorker w log).flatMap (selectedRows lz4 schema predicate names)) := by
      refine List.Sublist.flatMap_right _ fun w _ => ?_
      rw [reads.cappedRows fun partDir member =>
        filled partDir (part.subset ((ofWorker_sublist w log).subset member))]
      exact List.take_sublist _ _
    have rows := perm.flatMap_right RecordBatch.rows
    rw [List.flatMap_assoc] at rows
    rw [← List.flatMap_assoc (f := fun w => ofWorker w log)] at first
    have shares := (perm_flatMap_ofWorker logWorkers).symm.flatMap_right
      (selectedRows lz4 schema predicate names)
    exact rows.subperm.trans (first.subperm.trans
      (shares.subperm.trans (part.flatMap _).subperm))
  · rw [Pool.receivedSize, ← sum_resultRows]
    exact congrArg (fun results : List BatchResult => (results.map resultRows).sum) same.symm

end Results

end TinyOlap.Execution
