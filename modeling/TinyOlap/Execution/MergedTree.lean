import TinyOlap.Execution.TreeResult

/-!
# How a query ends

The root of a query takes what the workers have returned: it collects the batches, or merges them
if the query aggregates, up to the first error. If the plan has seen to it that the columns of the
final aggregation are among those that the workers project, the root never panics. So once the
workers are done the query is over, with an error if one of them has sent one, and with batches
if none has (`concludes`).
-/

set_option autoImplicit false

namespace TinyOlap.Execution

open Library Library.WorkPool Catalog Arrow Storage Physical

/-! ## What the root gets -/

section Received

variable {lz4 : Lz4} {schema : TableSchema} {tree : ExecutionPlan} {parts : List PartDir}
  {workers : Nat} {start g : GatherExec} {events : List Event}

theorem rowCount_append (results more : List BatchResult) :
    rowCount (results ++ more) = rowCount results + rowCount more := by
  rw [rowCount, List.map_append, List.sum_append, rowCount, rowCount]

theorem storedRows_append (parts more : List PartDir) :
    storedRows lz4 schema (parts ++ more) =
      storedRows lz4 schema parts + storedRows lz4 schema more := by
  rw [storedRows, List.flatMap_append, List.length_append, storedRows, storedRows]

/-- **What all workers return together**: results of the tree's fields, with no more rows than the
parts have, but for those that aggregations without GROUP BY make of none. -/
theorem RunsAsItReads.received (runs : RunsAsItReads lz4 tree parts workers start)
    (distinct : schema.Distinct) (sound : tree.Sound schema)
    (filled : ∀ partDir ∈ parts, Filled lz4 schema partDir)
    (few : tree.wholes + storedRows lz4 schema parts ≤ maxGroups)
    (ran : start.run lz4 events = some g) (hungUp : g.hungUp = true) :
    (∀ result ∈ g.returned, HasFields tree.outputFields result) ∧
      rowCount g.returned ≤ workers * tree.wholes + storedRows lz4 schema parts := by
  obtain ⟨log, part, _, logWorkers, sentWorkers, each⟩ := runs.returns events g ran hungUp
  have one : ∀ w < workers, (∀ result ∈ ofWorker w g.received, HasFields tree.outputFields result) ∧
      rowCount (ofWorker w g.received) ≤
        tree.wholes + storedRows lz4 schema (ofWorker w log) := by
    intro w inside
    have share : (ofWorker w log).Sublist parts := (ofWorker_sublist w log).trans part.sublist
    have less := @storedRows_le lz4 schema _ _ share
    obtain ⟨items, made, typed, rows⟩ := sound.exists_results distinct
      (fun partDir member => filled partDir (share.subset member)) (by omega)
    cases made.symm.trans (each w inside)
    exact ⟨typed, rows⟩
  have arrived : g.returned.Perm ((List.range workers).flatMap fun w => ofWorker w g.received) :=
    perm_flatMap_ofWorker sentWorkers
  constructor
  · intro result member
    obtain ⟨w, inside, sent⟩ := List.mem_flatMap.mp (arrived.mem_iff.mp member)
    exact (one w (List.mem_range.mp inside)).1 result sent
  · have total : ∀ m ≤ workers, rowCount ((List.range m).flatMap fun w => ofWorker w g.received) ≤
        m * tree.wholes +
          storedRows lz4 schema ((List.range m).flatMap fun w => ofWorker w log) := by
      intro m
      induction m with
      | zero => simp [rowCount]
      | succ m ih =>
          intro below
          have before := ih (Nat.le_of_succ_le below)
          have next := (one m below).2
          rw [List.range_succ, List.flatMap_append, List.flatMap_append, List.flatMap_singleton,
            List.flatMap_singleton, rowCount_append, storedRows_append, Nat.succ_mul]
          omega
    have logged : storedRows lz4 schema ((List.range workers).flatMap fun w => ofWorker w log) =
        storedRows lz4 schema (log.map Prod.snd) :=
      ((perm_flatMap_ofWorker logWorkers).flatMap_right _).length_eq.symm
    have shared := @storedRows_le lz4 schema _ _ part.sublist
    have same : rowCount g.returned =
        rowCount ((List.range workers).flatMap fun w => ofWorker w g.received) :=
      (arrived.map resultRows).sum_eq
    have all := total workers (Nat.le_refl _)
    omega

end Received

/-! ## The columns of a projection -/

/-- The columns that a projection selects are found as below it. -/
theorem find?_projected {fields : List Field} {labels : List String} {name : String}
    (member : name ∈ labels) :
    ((labels.map .column).filterMap (projectedField fields)).find? (fun f => f.name = name) =
      fields.find? fun f => f.name = name := by
  have found : ∀ {label : String} {f : Field},
      fields.find? (fun f => f.name = label) = some f → f.name = label := fun there => by
    simpa using List.find?_some there
  have absent : fields.find? (fun f => f.name = name) = none → ∀ labels : List String,
      ((labels.map .column).filterMap (projectedField fields)).find? (fun f => f.name = name) =
        none := by
    intro missing labels
    refine List.find?_eq_none.mpr fun f inside => ?_
    obtain ⟨e, here, projects⟩ := List.mem_filterMap.mp inside
    obtain ⟨label, _, rfl⟩ := List.mem_map.mp here
    have other := List.find?_eq_none.mp missing f (List.mem_of_find?_eq_some projects)
    exact other
  induction labels with
  | nil => cases member
  | cons label labels ih =>
      have later : ¬ label = name → name ∈ labels := fun other =>
        (List.mem_cons.mp member).resolve_left (Ne.symm other)
      rw [List.map_cons]
      cases projects : fields.find? fun f => f.name = label with
      | none =>
          rw [List.filterMap_cons_none (show projectedField fields (.column label) = none from
            projects)]
          by_cases same : label = name
          · subst same
            rw [projects]
            exact absent projects labels
          · exact ih (later same)
      | some f =>
          have named := found projects
          rw [List.filterMap_cons_some (show projectedField fields (.column label) = some f from
            projects), List.find?_cons]
          by_cases same : label = name
          · subst same
            rw [decide_eq_true named, projects]
          · rw [decide_eq_false (named ▸ same), ih (later same)]

namespace AggregateExec

variable {aggregates : List Aggregate} {groupByFields fields : List Field} {labels : List String}

/-- The slots of a partial accumulator are those that the final one takes. -/
theorem dataType_outputField (a : Aggregate) :
    (a.accumulator true).outputField.dataType = (a.accumulator false).slotType := by
  cases a with
  | float function double c => cases function <;> rfl
  | _ => rfl

/-- **A projection with the group columns and the aggregates** leaves the columns of the final
aggregation. -/
theorem Sound.planned (sound : Sound aggregates groupByFields fields)
    (selected : ∀ name ∈ aggregateNames aggregates groupByFields, name ∈ labels)
    {batch : RecordBatch}
    (has : batch.fields = (labels.map .column).filterMap (projectedField
      (groupByFields ++ aggregates.map fun a => (a.accumulator true).outputField))) :
    AggregatePhase.merge.Planned (aggregates.map (Aggregate.accumulator false)) groupByFields
      batch := by
  constructor
  · intro f member
    have named : f.name ∈ labels := selected f.name
      (List.mem_append_left _ (List.mem_map_of_mem member))
    refine ⟨f, ?_, rfl⟩
    rw [has, find?_projected named, List.find?_append, find?_groupByFields sound.grouped member]
    rfl
  · intro acc member
    obtain ⟨a, inside, rfl⟩ := List.mem_map.mp member
    have named : a.outputName ∈ labels := selected _
      (List.mem_append_right _ (List.mem_map_of_mem inside))
    have absent : groupByFields.find? (fun f => f.name = a.outputName) = none :=
      List.find?_eq_none.mpr fun f here => by simpa using sound.clear f here a inside
    refine ⟨(a.accumulator true).outputField, ?_, dataType_outputField a⟩
    rw [has, Aggregate.outputName_eq, find?_projected named, List.find?_append, absent,
      Option.none_or, find?_outputFields sound.reads inside]

end AggregateExec

/-! ## The end -/

/-- **The query is over**, with an error that a worker has sent, or with batches if none has. -/
def Concludes (root : RootExec) (g : GatherExec) : Prop :=
  (∃ e, .error e ∈ g.returned ∧ root.returned g = some (.err e)) ∨
    (∀ e, .error e ∉ g.returned) ∧ ∃ batches, root.returned g = some (.ok batches)

/-- Collecting batches ends at the first error. -/
theorem collectBatches_cases (results : List BatchResult) :
    (∃ e, .error e ∈ results ∧ RootExec.collectBatches results = .err e) ∨
      (∀ e, .error e ∉ results) ∧ ∃ batches, RootExec.collectBatches results = .ok batches := by
  induction results with
  | nil => exact .inr ⟨by simp, [], rfl⟩
  | cons result rest ih =>
      rw [RootExec.collectBatches, List.mapM_cons]
      cases result with
      | error e => exact .inl ⟨e, by simp, rfl⟩
      | ok batch =>
          rcases ih with ⟨e, inside, failed⟩ | ⟨clean, batches, collected⟩
          · rw [RootExec.collectBatches] at failed
            exact .inl ⟨e, by simp [inside], by rw [failed]; rfl⟩
          · rw [RootExec.collectBatches] at collected
            exact .inr ⟨by simpa using clean, batch :: batches, by rw [collected]; rfl⟩

/-- Without a final aggregation a query concludes when the workers are done. -/
theorem concludes_of_none {root : RootExec} {g : GatherExec} (none : root.merge = none)
    (hungUp : g.hungUp = true) : Concludes root g := by
  rcases collectBatches_cases g.returned with ⟨e, inside, failed⟩ | ⟨clean, batches, collected⟩
  · exact .inl ⟨e, inside, by simp only [RootExec.returned, none, failed]⟩
  · exact .inr ⟨clean, batches, by simp only [RootExec.returned, none, collected, hungUp, if_true]⟩

/-- With a final aggregation it does so if the batches have the columns of this, and few enough
rows. -/
theorem concludes_of_merge {root : RootExec} {g : GatherExec} {accumulators : List Accumulator}
    {groupByFields : List Field} (fresh : ∀ acc ∈ accumulators, acc.bare = acc)
    (merges : root.merge = some (MergeAggregateExec.new accumulators groupByFields))
    (some : groupByFields ≠ [] ∨ accumulators ≠ [])
    (planned : ∀ batch, .ok batch ∈ g.returned →
      AggregatePhase.merge.Planned accumulators groupByFields batch)
    (few : rowCount g.returned ≤ maxGroups) (hungUp : g.hungUp = true) : Concludes root g := by
  have ordered := AggregateExec.inOrder_start fresh .merge groupByFields
  rcases ordered.consume planned (by simpa using few) with
    ⟨e, inside, failed⟩ | ⟨clean, s, seen, consumed, after⟩
  · refine .inl ⟨e, inside, ?_⟩
    have failed : (MergeAggregateExec.new accumulators groupByFields).consume g.returned = .err e :=
      failed
    simp only [RootExec.returned, merges, failed]
  · obtain ⟨out, made, _⟩ := after.finish some
    have consumed : (MergeAggregateExec.new accumulators groupByFields).consume g.returned =
      .ok s := consumed
    refine .inr ⟨clean, [out], ?_⟩
    simp only [RootExec.returned, merges, consumed, hungUp, if_true, made, Outcome.ok_bind]

end TinyOlap.Execution
