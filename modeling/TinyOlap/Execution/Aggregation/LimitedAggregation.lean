import TinyOlap.Execution.Aggregation.AggregateTree
import TinyOlap.Execution.Aggregation.CutResult

/-!
# Workers that aggregate under a limit

With a limit each worker sends the first rows of its partial result, as many as the limit allows,
or nothing if the limit is zero. It still goes through all of its parts before
(`exists_delivers_limited`). The final aggregation makes of these batches the result of the rows
that count, which are those of the first groups of each worker (`exists_merged_limited`).
-/

set_option autoImplicit false

namespace TinyOlap.Execution

open Library Library.WorkPool Catalog Arrow Storage Physical

namespace AggregateExec

variable {aggregates : List Aggregate} {groupByFields fields : List Field}
  {lz4 : Lz4} {schema : TableSchema} {columns : List ColumnSchema}
  {predicate : Option PhysicalExpr} {selected : List String} {parts : List PartDir}

/-- **What a worker delivers with a limit**: the first rows of its partial result. If the limit is
not zero, it waits for the end of the parts. -/
theorem exists_delivers_limited (reads : Reads schema columns predicate selected)
    (filled : ∀ partDir ∈ parts, Filled lz4 schema partDir)
    (sound : Sound aggregates groupByFields (columns.map Field.ofColumn))
    (few : (distinctKeys groupByFields (inputBatches lz4 columns predicate parts)).length ≤
      maxGroups) (limit : Nat) :
    ∃ sent : List PartDir → RecordBatch,
      (∀ handed, handed.Sublist parts → PartialOf aggregates groupByFields
        (inputBatches lz4 columns predicate handed) (sent handed)) ∧
      ∃ base weight, Delivers (ExecutionPlan.act lz4) (.limit limit 0 (aggregateTree columns
          predicate aggregates groupByFields (aggregateNames aggregates groupByFields))) parts
          (fun handed => (limitBatches limit [sent handed]).map .ok) base weight ∧
        (0 < limit → Exhausts (ExecutionPlan.act lz4) (.limit limit 0 (aggregateTree columns
            predicate aggregates groupByFields (aggregateNames aggregates groupByFields))) parts ∧
          Waits (ExecutionPlan.act lz4) (.limit limit 0 (aggregateTree columns
            predicate aggregates groupByFields (aggregateNames aggregates groupByFields)))
            parts) := by
  obtain ⟨sent, sends, base, weight, delivers, exhausts, waits⟩ :=
    exists_delivers reads filled sound few
  let wrap : Nat → ExecutionPlan → ExecutionPlan := .limit limit
  have makes : ∀ handed : List PartDir, handed.Sublist parts →
      (limitExec limit).result 0 [.ok (sent handed)] =
        some ((limitBatches limit [sent handed]).map .ok) :=
    fun handed _ => limitExec_result (Nat.zero_le limit) [sent handed]
  have acts : ∀ x s, ExecutionPlan.act lz4 (wrap x s) =
      (limitExec limit).onTop (ExecutionPlan.act lz4 s) wrap x s := fun _ _ => rfl
  refine ⟨sent, sends, _, _, delivers.operator makes acts, fun positive => ⟨?_, ?_⟩⟩
  · exact Exhausts.of_waits delivers makes acts exhausts waits (by
      simp only [limitExec, decide_eq_false_iff_not]
      omega)
  · exact Waits.operator delivers makes acts exhausts waits

/-- **What the final aggregation makes of partial results under a limit**: the rows that describe
the groups of the rows with the first keys of each worker. -/
theorem exists_merged_limited
    (sound : Sound aggregates groupByFields fields) {limit : Nat} (positive : 0 < limit)
    {workers : Nat} {share : Nat → List RecordBatch} {sent : Nat → RecordBatch}
    (sends : ∀ w < workers, PartialOf aggregates groupByFields (share w) (sent w))
    (has : ∀ w < workers, ∀ b ∈ share w, b.fields = fields)
    (few : (distinctKeys groupByFields ((List.range workers).flatMap share)).length ≤ maxGroups)
    {received : List (Nat × BatchResult)} (sentWorkers : ∀ entry ∈ received, entry.1 < workers)
    (each : ∀ w < workers, ofWorker w received = (limitBatches limit [sent w]).map .ok) :
    ∃ s out keys, (mergeStart aggregates groupByFields).consume (received.map Prod.snd) = .ok s ∧
      s.finish.1 = .ok out ∧
      out.fields = groupByFields ++ aggregates.map (fun a => (a.accumulator false).outputField) ∧
      ResultRows (fun a values v => a.Describes values v) aggregates groupByFields
        ((List.range workers).flatMap fun w => cutBatches groupByFields limit (share w)) keys
        out.rows := by
  have limits : ∀ w ∈ List.range workers, ∃ cut, limitBatches limit [sent w] = [cut] ∧
      PartialOf aggregates groupByFields (cutBatches groupByFields limit (share w)) cut := by
    intro w inside
    have inside := List.mem_range.mp inside
    exact (sends w inside).limited sound.grouped (has w inside) positive
  obtain ⟨cuts, made⟩ := exists_forall₂ limits
  have partials : List.Forall₂ (PartialOf aggregates groupByFields)
      ((List.range workers).map fun w => cutBatches groupByFields limit (share w)) cuts :=
    List.forall₂_map_left_iff.mpr (made.imp fun w cut both => both.2)
  have arrive : (received.map Prod.snd).Perm (cuts.map .ok) := by
    refine (perm_flatMap_ofWorker sentWorkers).trans (.of_eq ?_)
    rw [List.flatMap_congr fun w member => each w (List.mem_range.mp member),
      flatMap_eq_of_forall₂ (g := fun cut => [Except.ok cut])
        (made.imp fun w cut both => by rw [both.1, List.map_singleton])]
    exact List.flatMap_pure_eq_map _ _
  obtain ⟨arrived, returned, order⟩ := exists_batches_of_perm arrive
  have hasCut : ∀ b ∈ (List.range workers).flatMap fun w =>
      cutBatches groupByFields limit (share w), b.fields = fields := by
    intro b member
    obtain ⟨w, inside, here⟩ := List.mem_flatMap.mp member
    exact fields_cutBatches (has w (List.mem_range.mp inside)) b here
  have fewCut : (distinctKeys groupByFields ((List.range workers).flatMap fun w =>
      cutBatches groupByFields limit (share w))).length ≤ maxGroups := by
    refine Nat.le_trans ((nodup_eraseDups _).subperm fun key known => ?_).length_le few
    rw [List.mem_eraseDups] at known ⊢
    rw [List.flatMap_assoc] at known ⊢
    obtain ⟨w, inside, here⟩ := List.mem_flatMap.mp known
    rw [keysOf_cutBatches sound.grouped (has w (List.mem_range.mp inside))] at here
    exact List.mem_flatMap.mpr ⟨w, inside, List.mem_of_mem_filter here⟩
  rw [List.flatMap_def] at hasCut fewCut
  obtain ⟨s, out, keys, consumed, finished, outFields, rows, _⟩ :=
    result_of_arrived sound hasCut fewCut partials order
  rw [← List.flatMap_def] at rows
  exact ⟨s, out, keys, returned ▸ consumed, finished, outFields, rows⟩

end AggregateExec

end TinyOlap.Execution
