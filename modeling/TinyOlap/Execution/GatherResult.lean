import TinyOlap.Execution.Builder
import TinyOlap.Execution.StoredRows

/-!
# Scans under a gather

The workers of a query without aggregation, filter or projection are scans. Whatever
the schedule, the gather returns one batch for each granule of each part that is not
left out: the parts are divided among the workers, and each worker's batches arrive in
the order of its parts and their granules. The end of the batches is seen when all workers
have been told that there are no more parts, and it is always reached.
-/

set_option autoImplicit false

namespace TinyOlap.Execution

open Library Library.WorkPool Catalog Arrow Storage Physical

/-! ## Scans as plans -/

/-- The scan of a worker. With a predicate it is a zone map scan. -/
def scanPlan (columns : List ColumnSchema) : Option PhysicalExpr → ExecutionPlan
  | none => .fullScan (.new columns (columns.map Field.ofColumn))
  | some predicate => .zoneMapScan (.new columns (columns.map Field.ofColumn) predicate)

/-- Whether a scan leaves out a part. -/
def leavesOut (predicate : Option PhysicalExpr) (partDir : PartDir) : Bool :=
  predicate.any (zoneMapCanSkip (loadZoneMap partDir))

section Scans

variable {lz4 : Lz4} {columns : List ColumnSchema} {predicate : Option PhysicalExpr}
  {parts : List PartDir}

/-- The plan acts as the scan in it. -/
theorem exists_scanPlan_eq : ∃ name : FullScanExec → ExecutionPlan,
    name (.new columns (columns.map Field.ofColumn)) = scanPlan columns predicate ∧
    ∀ s, ExecutionPlan.act lz4 (name s) =
      (s.actSkipping lz4 (leavesOut predicate)).map (Turn.map name) := by
  cases predicate with
  | none => exact ⟨.fullScan, rfl, fun s => rfl⟩
  | some predicate =>
      refine ⟨fun s => .zoneMapScan ⟨s, predicate⟩, rfl, fun s => ?_⟩
      have leaves : leavesOut (some predicate) =
          fun partDir => zoneMapCanSkip (loadZoneMap partDir) predicate := rfl
      rw [leaves, ExecutionPlan.act, ZoneMapScanExec.act, Act.map_map]
      congr 1
      funext t
      cases t <;> rfl

theorem delivers_scanPlan (nonempty : columns ≠ [])
    (scannable : ∀ partDir ∈ parts, Scannable lz4 columns (leavesOut predicate) partDir) :
    Delivers (ExecutionPlan.act lz4) (scanPlan columns predicate) parts
      (List.flatMap (scanItems lz4 columns (leavesOut predicate))) 1
      (fun partDir => 1 + (scanItems lz4 columns (leavesOut predicate) partDir).length) := by
  obtain ⟨name, start, acts⟩ := @exists_scanPlan_eq lz4 columns predicate
  exact start ▸ (delivers_scan nonempty scannable).rename acts

theorem exhausts_scanPlan (nonempty : columns ≠ [])
    (scannable : ∀ partDir ∈ parts, Scannable lz4 columns (leavesOut predicate) partDir) :
    Exhausts (ExecutionPlan.act lz4) (scanPlan columns predicate) parts := by
  obtain ⟨name, start, acts⟩ := @exists_scanPlan_eq lz4 columns predicate
  exact start ▸ Exhausts.rename (exhausts_scan nonempty scannable) acts

end Scans

/-! ## The batches of a gather -/

/-- The batches a scan returns of a part that holds a batch. -/
def scannedBatches (predicate : Option PhysicalExpr) (whole : PartDir → RecordBatch)
    (partDir : PartDir) : List BatchResult :=
  if leavesOut predicate partDir then [] else (granules (whole partDir)).map .ok

theorem scanItems_eq_scannedBatches {lz4 : Lz4} {columns : List ColumnSchema}
    {predicate : Option PhysicalExpr} {whole : PartDir → RecordBatch} {partDir : PartDir}
    (nonempty : columns ≠ []) (holds : PartHolds lz4 columns partDir (whole partDir)) :
    scanItems lz4 columns (leavesOut predicate) partDir =
      scannedBatches predicate whole partDir := by
  rw [scanItems, scannedBatches, readPart_eq holds nonempty]

/-- **Each granule is delivered exactly once under any schedule.** Take workers that scan
parts, each of which holds a batch with at least one row. When the gather returns its
first none, all workers have been told that there are no more parts (`true` below). Each
part has gone to one worker; of each worker the batches of its parts have arrived, part
after part and granule after granule; together these are the batches of all parts.
No schedule goes on forever, and before that none every schedule can go on. -/
theorem gather_scans (lz4 : Lz4) (columns : List ColumnSchema) (nonempty : columns ≠ [])
    (predicate : Option PhysicalExpr) (parts : List PartDir) (whole : PartDir → RecordBatch)
    (holds : ∀ partDir ∈ parts,
      PartHolds lz4 columns partDir (whole partDir) ∧ 0 < (whole partDir).numRows)
    (workers : Nat) (start : GatherExec)
    (created : GatherExec.new parts workers (scanPlan columns predicate) = .ok start) :
    (∀ events g, start.run lz4 events = some g → g.hungUp = true →
      g.returned.Perm (parts.flatMap (scannedBatches predicate whole)) ∧
      ∃ log : List (Nat × PartDir), log.map Prod.snd = parts ∧
        (∀ entry ∈ log, entry.1 < workers) ∧ (∀ entry ∈ g.received, entry.1 < workers) ∧
        ∀ w < workers,
          ofWorker w g.received = (ofWorker w log).flatMap (scannedBatches predicate whole) ∧
          ∃ turns, Runs (ExecutionPlan.act lz4) (scanPlan columns predicate) turns
            (ofWorker w log) true (ofWorker w g.received) .finished) ∧
    (∃ bound, ∀ events g, start.run lz4 events = some g →
      events.length ≤ bound ∧ (g.hungUp = false → ∃ event g', g.run lz4 [event] = some g')) := by
  unfold GatherExec.new at created
  split at created
  · cases created
  · rename_i positive
    cases created
    have scannable : ∀ partDir ∈ parts, Scannable lz4 columns (leavesOut predicate) partDir :=
      fun partDir member _ => ⟨_, holds partDir member⟩
    have delivers := @delivers_scanPlan lz4 columns predicate parts nonempty scannable
    have exhausts : Exhausts (ExecutionPlan.act lz4) (scanPlan columns predicate) parts :=
      exhausts_scanPlan nonempty scannable
    have items : ∀ share, share ⊆ parts →
        share.flatMap (scanItems lz4 columns (leavesOut predicate)) =
          share.flatMap (scannedBatches predicate whole) := fun share inside =>
      List.flatMap_congr fun partDir member =>
        scanItems_eq_scannedBatches nonempty (holds partDir (inside member)).1
    refine ⟨fun events g ran hungUp => ⟨?_, ?_⟩, ?_⟩
    · rw [← items parts fun _ member => member]
      exact received_perm_of_hungUp delivers exhausts (Nat.pos_of_ne_zero positive) ran hungUp
    · obtain ⟨log, logWorks, logWorkers, sentWorkers, share, fate⟩ :=
        finished_of_hungUp delivers ran hungUp
      have told : ∀ w < workers, ∃ turns, Runs (ExecutionPlan.act lz4)
          (scanPlan columns predicate) turns (ofWorker w log) true (ofWorker w g.received)
          .finished ∧ parts.length ≤ g.next := by
        intro w inside
        obtain ⟨turns, exhausted, runs, all⟩ := fate w inside
        have yes := exhausts (share w) runs
        subst yes
        exact ⟨turns, runs, all rfl⟩
      obtain ⟨_, _, all⟩ := told 0 (Nat.pos_of_ne_zero positive)
      refine ⟨log, by rw [logWorks, List.take_of_length_le all], logWorkers, sentWorkers,
        fun w inside => ?_⟩
      obtain ⟨turns, runs, _⟩ := told w inside
      exact ⟨(delivers.complete (share w) runs).trans (items _ (share w).subset), turns, runs⟩
    · refine ⟨_, fun events g ran => ⟨length_le_of_run delivers ran, fun going => ?_⟩⟩
      have room : 0 < channelBound := by decide
      obtain ⟨event, g', steps⟩ := @exists_step _ _ _ (ExecutionPlan.act lz4)
        channelBound room g going
      exact ⟨event, g', by simp [GatherExec.run, run, steps]⟩

/-- Two parts of one granule each under two workers: two batches arrive. -/
theorem gather_scans_two : ∃ (partDir : PartDir) (start : GatherExec),
    GatherExec.new [partDir, partDir] 2 (scanPlan [⟨"a", .int .i8⟩] none) = .ok start ∧
    ∀ events g, start.run Lz4.literals events = some g → g.hungUp = true →
      g.returned.length = 2 := by
  obtain ⟨partDir, whole, holds, numRows⟩ := exists_partHolds_two
  refine ⟨partDir, _, rfl, fun events g ran hungUp => ?_⟩
  have gathered := (gather_scans Lz4.literals [⟨"a", .int .i8⟩] (by simp) none [partDir, partDir]
    (fun _ => whole) (by simp [holds, numRows]) 2 _ rfl).1 events g ran hungUp
  have one : BlockLayout.granuleCount granuleSize 2 = 1 := by decide
  rw [gathered.1.length_eq]
  simp [scannedBatches, leavesOut, granules_length, numRows, one]

end TinyOlap.Execution
