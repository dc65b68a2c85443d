import TinyOlap.Execution.Aggregation.GroupedRows
import TinyOlap.Execution.Aggregation.ParallelResult
import TinyOlap.Execution.OutputFields
import TinyOlap.Library.Refines
import TinyOlap.Library.Waiting

/-!
# Workers that aggregate

The tree of such a worker is a scan, a filter if there is a predicate, the partial aggregation
and a projection. If the projection names the group columns and then the aggregates, in the
order in which the aggregation has them, it changes nothing that the final aggregation looks at
(`Output.project`). Each worker then sends one batch, for the rows of its parts, and whatever
the schedule, the final aggregation makes the result of all rows of them.
-/

set_option autoImplicit false

namespace TinyOlap.Execution

open Library Library.WorkPool Catalog Arrow Storage Physical

/-! ## The tree -/

/-- The names of the columns of an aggregation: the group columns, then the aggregates. -/
def aggregateNames (aggregates : List Aggregate) (groupByFields : List Field) : List String :=
  groupByFields.map Field.name ++ aggregates.map Aggregate.outputName

/-- The tree of a query with aggregation. -/
def aggregateTree (columns : List ColumnSchema) (predicate : Option PhysicalExpr)
    (aggregates : List Aggregate) (groupByFields : List Field) (names : List String) :
    ExecutionPlan :=
  .project (names.map .column)
    (.hashAggregate
      (HashAggregateExec.new (aggregates.map (Aggregate.accumulator true)) groupByFields)
      (filterTree columns predicate))

namespace AggregateExec

/-! ## The projection -/

variable {aggregates : List Aggregate} {groupByFields fields : List Field} {keys : List GroupKey}
  {values : Aggregate → GroupKey → List Value} {out : RecordBatch}

/-- The first group column of a name is the group column. -/
theorem find?_groupByFields
    (grouped : ∀ f ∈ groupByFields, Accumulator.FieldOf fields f.name f.dataType) {f : Field}
    (member : f ∈ groupByFields) :
    groupByFields.find? (fun g => g.name = f.name) = some f := by
  obtain ⟨g, found⟩ : ∃ g, groupByFields.find? (fun g => g.name = f.name) = some g :=
    Option.isSome_iff_exists.mp (List.find?_isSome.mpr ⟨f, member, by simp⟩)
  have named : g.name = f.name := by simpa using List.find?_some found
  have type := Aggregate.fieldOf_unique (grouped g (List.mem_of_find?_eq_some found))
    (named ▸ grouped f member)
  rw [found]
  exact congrArg some (by cases g; cases f; simp_all)

/-- The first slots of a name are those of the aggregate, or of one that is the same. -/
theorem find?_outputFields (reads : ∀ a ∈ aggregates, a.ReadsFrom fields) {a : Aggregate}
    (member : a ∈ aggregates) (isPartial : Bool) :
    (aggregates.map fun a => (a.accumulator isPartial).outputField).find?
        (fun f => f.name = a.outputName) = some (a.accumulator isPartial).outputField := by
  rw [List.find?_map]
  obtain ⟨b, found⟩ : ∃ b, aggregates.find?
      ((fun f : Field => decide (f.name = a.outputName)) ∘
        fun a => (a.accumulator isPartial).outputField) = some b :=
    Option.isSome_iff_exists.mp (List.find?_isSome.mpr
      ⟨a, member, by simp [Aggregate.outputName_eq]⟩)
  have named : b.outputName = a.outputName := by
    have holds := List.find?_some found
    simpa [Aggregate.outputName_eq] using holds
  rw [found, Aggregate.eq_of_outputName (reads b (List.mem_of_find?_eq_some found))
    (reads a member) named]
  rfl

/-- The columns of an output, found by their names. -/
theorem outputFields_found
    (grouped : ∀ f ∈ groupByFields, Accumulator.FieldOf fields f.name f.dataType)
    (reads : ∀ a ∈ aggregates, a.ReadsFrom fields)
    (clear : ∀ f ∈ groupByFields, ∀ a ∈ aggregates, f.name ≠ a.outputName)
    (isPartial : Bool) :
    (aggregateNames aggregates groupByFields).filterMap (fun name =>
        (groupByFields ++ aggregates.map fun a => (a.accumulator isPartial).outputField).find?
          fun f => f.name = name) =
      groupByFields ++ aggregates.map fun a => (a.accumulator isPartial).outputField := by
  rw [aggregateNames, List.filterMap_append, List.filterMap_map, List.filterMap_map]
  congr 1
  · refine (List.filterMap_congr fun f member => ?_).trans List.filterMap_some
    rw [Function.comp_apply, List.find?_append, find?_groupByFields grouped member]
    rfl
  · refine (List.filterMap_congr fun a member => ?_).trans
      (congrFun (List.filterMap_eq_map (f := fun a : Aggregate =>
        (a.accumulator isPartial).outputField)) aggregates)
    have absent : groupByFields.find? (fun f => f.name = a.outputName) = none :=
      List.find?_eq_none.mpr fun f inside => by simpa using clear f inside a member
    rw [Function.comp_apply, List.find?_append, absent, Option.none_or,
      find?_outputFields reads member]
    rfl

/-- **A projection in the order of the aggregation changes nothing.** -/
theorem Output.project (sound : Sound aggregates groupByFields fields)
    (consistent : ∀ key ∈ keys, SameNames groupByFields key)
    (output : Output true aggregates groupByFields keys values out) :
    ∃ projected, projectBatch ((aggregateNames aggregates groupByFields).map .column) out =
        .ok projected ∧
      Output true aggregates groupByFields keys values projected := by
  have named : out.names = aggregateNames aggregates groupByFields := by
    rw [RecordBatch.names, output.fields, List.map_append, List.map_map, aggregateNames]
    congr 1
  obtain ⟨projected, made, outFields, columns, numRows, _⟩ :=
    @projectBatch_eq (aggregateNames aggregates groupByFields) out (by
      intro name member
      rwa [named])
  rw [output.fields, outputFields_found sound.grouped sound.reads sound.clear] at outFields
  refine ⟨projected, made, outFields, numRows.trans output.rows, ?_⟩
  have found := fieldOf_output sound.grouped output
  have groups := exists_groupColumns found rfl
  obtain ⟨accumulators, slots⟩ := exists_forall₂ fun a (member : a ∈ aggregates) =>
    columnByName_output sound.reads sound.clear output member
  refine ⟨groupByFields.filterMap fun f => out.columnByName f.name, accumulators, ?_,
    groups.length_eq.symm, ?_, slots.imp fun a acc both => both.1⟩
  · rw [columns, aggregateNames, List.filterMap_append, List.filterMap_map, List.filterMap_map]
    congr 1
    exact filterMap_of_forall₂ (List.forall₂_map_right_iff.mpr
      (slots.imp fun a acc both => both.2))
  · have keys := keysOf_output sound.grouped consistent output
    rwa [keysOf, output.rows] at keys

/-! ## Delivery -/

/-- An aggregation that has not ended goes on. -/
theorem feed_going {s s' : AggregateExec} {results outs : List BatchResult}
    (going : s.emitted = false)
    (fed : hashAggregateExec.feed s results = some (s', outs)) : s'.emitted = false := by
  induction results generalizing s outs with
  | nil =>
      cases fed
      exact going
  | cons result rest ih =>
      rw [Operator.feed, if_neg (by simp [hashAggregateExec, going])] at fed
      cases result with
      | error e =>
          obtain ⟨⟨later, _⟩, fed', same⟩ := Option.map_eq_some_iff.mp fed
          cases same
          exact ih going fed'
      | ok batch =>
          have kept := (emitted_absorbBatch Accumulator.update s batch).trans going
          cases absorbed : s.absorbBatch Accumulator.update batch with
          | mk answer next =>
              rw [absorbed] at kept
              simp only [hashAggregateExec, absorbed] at fed
              cases answer with
              | ok _ => exact ih kept fed
              | err e =>
                  obtain ⟨⟨later, _⟩, fed', same⟩ := Option.map_eq_some_iff.mp fed
                  cases same
                  exact ih kept fed'
              | panic => cases fed

/-- Before the end an aggregation returns nothing but errors. -/
theorem eq_error_of_feed {s s' : AggregateExec} {batches : List RecordBatch}
    {outs : List BatchResult} (going : s.emitted = false)
    (fed : hashAggregateExec.feed s (batches.map .ok) = some (s', outs)) :
    ∀ out ∈ outs, ∃ e, out = .error e := by
  induction batches generalizing s outs with
  | nil =>
      cases fed
      exact fun out member => by cases member
  | cons batch rest ih =>
      rw [List.map_cons, Operator.feed, if_neg (by simp [hashAggregateExec, going])] at fed
      have kept := (emitted_absorbBatch Accumulator.update s batch).trans going
      cases absorbed : s.absorbBatch Accumulator.update batch with
      | mk answer next =>
          rw [absorbed] at kept
          simp only [hashAggregateExec, absorbed] at fed
          cases answer with
          | ok _ => exact ih kept fed
          | err e =>
              obtain ⟨⟨later, outs'⟩, fed', same⟩ := Option.map_eq_some_iff.mp fed
              cases same
              exact List.forall_mem_cons.mpr ⟨⟨e, rfl⟩, ih kept fed'⟩
          | panic => cases fed

variable {lz4 : Lz4} {schema : TableSchema} {columns : List ColumnSchema}
  {predicate : Option PhysicalExpr} {selected : List String} {parts : List PartDir}

/-- The batches that reach an aggregation. -/
abbrev inputBatches (lz4 : Lz4) (columns : List ColumnSchema) (predicate : Option PhysicalExpr)
    (parts : List PartDir) : List RecordBatch :=
  parts.flatMap (filteredBatches lz4 columns predicate)

theorem inputBatches_subset {handed : List PartDir} (inside : handed ⊆ parts) :
    inputBatches lz4 columns predicate handed ⊆ inputBatches lz4 columns predicate parts := by
  intro b member
  obtain ⟨partDir, here, filtered⟩ := List.mem_flatMap.mp member
  exact List.mem_flatMap.mpr ⟨partDir, inside here, filtered⟩

theorem inputBatches_filled (reads : Reads schema columns predicate selected)
    (filled : ∀ partDir ∈ parts, Filled lz4 schema partDir) :
    ∀ b ∈ inputBatches lz4 columns predicate parts, HasRows (columns.map Field.ofColumn) b := by
  intro b member
  obtain ⟨partDir, here, inside⟩ := List.mem_flatMap.mp member
  exact (reads.filtered (filled partDir here) inside).symm

/-- **An aggregation waits for the end of the parts**: it makes one batch, and so none before. -/
theorem waits_hashAggregate {s : AggregateExec} {child : ExecutionPlan} {base : Nat}
    {weight : PartDir → Nat} {inputs : List PartDir → List RecordBatch}
    {made : List PartDir → RecordBatch} (going : s.emitted = false)
    (delivers : Delivers (ExecutionPlan.act lz4) child parts
      (fun handed => (inputs handed).map .ok) base weight)
    (makes : ∀ handed, handed.Sublist parts →
      hashAggregateExec.result s ((inputs handed).map .ok) = some [.ok (made handed)])
    (exhausts : Exhausts (ExecutionPlan.act lz4) child parts) :
    Waits (ExecutionPlan.act lz4) (.hashAggregate s child) parts := by
  let wrap : AggregateExec → ExecutionPlan → ExecutionPlan := .hashAggregate
  have acts : ∀ x s, ExecutionPlan.act lz4 (wrap x s) =
      hashAggregateExec.onTop (ExecutionPlan.act lz4 s) wrap x s := fun _ _ => rfl
  have silent : ∀ n handed pulled phase x out, handed.Sublist parts →
      Runs (ExecutionPlan.act lz4) child n handed false pulled phase →
      hashAggregateExec.feed s pulled = some (x, out) → out = [] := by
    intro n handed pulled phase x out part runs fed
    obtain ⟨rest, whole⟩ := delivers.begun part runs
    have all := makes handed part
    rw [← whole, List.append_assoc] at all
    obtain ⟨_, _, fed', begins⟩ := Operator.feed_of_result all
    cases fed.symm.trans fed'
    refine List.eq_nil_iff_forall_not_mem.mpr fun result member => ?_
    obtain ⟨batches, _, _, same, _⟩ :=
      List.map_eq_append_iff.mp (whole.symm.trans (List.append_assoc _ _ _))
    obtain ⟨e, erred⟩ := eq_error_of_feed going (same ▸ fed) result member
    cases erred.symm.trans (List.mem_singleton.mp (begins.subset member))
  change Waits (ExecutionPlan.act lz4) (wrap s child) parts
  exact Waits.of_silent delivers makes acts exhausts silent

/-- **What a worker delivers of a query with aggregation**: one batch for the rows of its
parts, at the end of these. -/
theorem exists_delivers (reads : Reads schema columns predicate selected)
    (filled : ∀ partDir ∈ parts, Filled lz4 schema partDir)
    (sound : Sound aggregates groupByFields (columns.map Field.ofColumn))
    (few : (distinctKeys groupByFields (inputBatches lz4 columns predicate parts)).length ≤
      maxGroups) :
    ∃ sent : List PartDir → RecordBatch,
      (∀ handed, handed.Sublist parts → PartialOf aggregates groupByFields
        (inputBatches lz4 columns predicate handed) (sent handed)) ∧
      ∃ base weight, Delivers (ExecutionPlan.act lz4) (aggregateTree columns predicate aggregates
          groupByFields (aggregateNames aggregates groupByFields)) parts
          (fun handed => [.ok (sent handed)]) base weight ∧
        Exhausts (ExecutionPlan.act lz4) (aggregateTree columns predicate aggregates
          groupByFields (aggregateNames aggregates groupByFields)) parts ∧
        Waits (ExecutionPlan.act lz4) (aggregateTree columns predicate aggregates
          groupByFields (aggregateNames aggregates groupByFields)) parts := by
  obtain ⟨base, weight, filters, exhausts⟩ := reads.delivers_filter filled
  have each : ∀ handed : List PartDir, ∃ made projected, handed.Sublist parts →
      workerResult aggregates groupByFields (inputBatches lz4 columns predicate handed) =
        some [.ok made] ∧
      projectBatch ((aggregateNames aggregates groupByFields).map .column) made =
        .ok projected ∧
      PartialOf aggregates groupByFields (inputBatches lz4 columns predicate handed)
        projected := by
    intro handed
    by_cases part : handed.Sublist parts
    · have here := inputBatches_filled reads fun partDir member =>
        filled partDir (part.subset member)
      have inside : inputBatches lz4 columns predicate handed ⊆
          inputBatches lz4 columns predicate parts := inputBatches_subset part.subset
      have less := (@distinctKeys_length_le groupByFields _ _ inside).trans few
      obtain ⟨made, returns, sends⟩ := exists_sent sound here less
      obtain ⟨projected, selects, sends'⟩ := sends.project sound fun key member =>
        (keys_typed sound.grouped (fun b inside => (here b inside).1) key member).2
      exact ⟨made, projected, fun _ => ⟨returns, selects, sends'⟩⟩
    · have empty : ∃ b : RecordBatch, b.numRows = 0 := ⟨⟨[], [], 0, rfl, by simp⟩, rfl⟩
      obtain ⟨b, _⟩ := empty
      exact ⟨b, b, fun inside => (part inside).elim⟩
  choose made sent results using each
  refine ⟨sent, fun handed part => (results handed part).2.2, ?_⟩
  -- the partial aggregation
  have aggregatesTo : ∀ handed : List PartDir, handed.Sublist parts →
      hashAggregateExec.result (HashAggregateExec.new
          (aggregates.map (Aggregate.accumulator true)) groupByFields)
        ((inputBatches lz4 columns predicate handed).map .ok) = some [.ok (made handed)] :=
    fun handed part => (results handed part).1
  let start := HashAggregateExec.new (aggregates.map (Aggregate.accumulator true)) groupByFields
  let wrap : AggregateExec → ExecutionPlan → ExecutionPlan := .hashAggregate
  have acts : ∀ x s, ExecutionPlan.act lz4 (wrap x s) =
      hashAggregateExec.onTop (ExecutionPlan.act lz4 s) wrap x s := fun _ _ => rfl
  have aggregated := filters.operator aggregatesTo acts
  have exhausted : Exhausts (ExecutionPlan.act lz4) (wrap start (filterTree columns predicate))
      parts :=
    Exhausts.operator filters aggregatesTo acts (fun _ _ _ fed => feed_going rfl fed) exhausts
  have waiting : Waits (ExecutionPlan.act lz4) (wrap start (filterTree columns predicate))
      parts := waits_hashAggregate rfl filters aggregatesTo exhausts
  -- the projection
  let names := aggregateNames aggregates groupByFields
  have projectsTo : ∀ handed : List PartDir, handed.Sublist parts →
      (projectExec (names.map .column)).result () [.ok (made handed)] =
        some [.ok (sent handed)] := by
    intro handed part
    simp [Operator.result, Operator.feed, Operator.close, projectExec, names,
      (results handed part).2.1, Turn.returning]
  let wrap' : Unit → ExecutionPlan → ExecutionPlan := fun _ c => .project (names.map .column) c
  have acts' : ∀ x s, ExecutionPlan.act lz4 (wrap' x s) =
      (projectExec (names.map .column)).onTop (ExecutionPlan.act lz4 s) wrap' x s :=
    fun _ _ => rfl
  have projected := aggregated.operator projectsTo acts'
  have exhausted' : Exhausts (ExecutionPlan.act lz4)
      (wrap' () (wrap start (filterTree columns predicate))) parts :=
    Exhausts.operator aggregated projectsTo acts' (fun _ _ _ _ => rfl) exhausted
  exact ⟨_, _, projected, exhausted', Waits.operator aggregated projectsTo acts' exhausted waiting⟩


/-! ## All workers -/

/-- Without GROUP BY all rows have the same key, and there is one group in any case. -/
theorem distinctKeys_length_le_resultKeys (batches : List RecordBatch) :
    (distinctKeys groupByFields batches).length ≤ (resultKeys groupByFields batches).length :=
  ((nodup_eraseDups _).subperm fun _ member =>
    mem_resultKeys (List.mem_eraseDups.mp member)).length_le

/-- **What the final aggregation makes of a whole gather**: whatever the schedule, the rows
that describe the groups of all parts. -/
theorem exists_merged (reads : Reads schema columns predicate selected)
    (filled : ∀ partDir ∈ parts, Filled lz4 schema partDir)
    (sound : Sound aggregates groupByFields (columns.map Field.ofColumn))
    (few : (distinctKeys groupByFields (inputBatches lz4 columns predicate parts)).length ≤
      maxGroups)
    {workers : Nat} (positive : 0 < workers) {events : List Event} {g : GatherExec}
    (ran : GatherExec.run lz4 (.init parts workers (aggregateTree columns predicate aggregates
      groupByFields (aggregateNames aggregates groupByFields))) events = some g)
    (hungUp : g.hungUp = true) :
    ∃ s out keys, (mergeStart aggregates groupByFields).consume g.returned = .ok s ∧
      s.finish.1 = .ok out ∧
      out.fields = groupByFields ++ aggregates.map (fun a => (a.accumulator false).outputField) ∧
      ResultRows (fun a values v => a.Describes values v) aggregates groupByFields
        (inputBatches lz4 columns predicate parts) keys out.rows := by
  obtain ⟨sent, sends, base, weight, delivers, exhausts, _⟩ :=
    exists_delivers reads filled sound few
  obtain ⟨log, logWorks, logWorkers, sentWorkers, each, all⟩ :=
    received_of_hungUp delivers ran hungUp
  have whole := all exhausts positive
  -- the share of each worker
  let share : Nat → List PartDir := fun w => ofWorker w log
  have shares : ((List.range workers).flatMap share).Perm parts :=
    whole ▸ (perm_flatMap_ofWorker logWorkers).symm
  have partials : List.Forall₂ (PartialOf aggregates groupByFields)
      ((List.range workers).map fun w => inputBatches lz4 columns predicate (share w))
      ((List.range workers).map fun w => sent (share w)) := by
    rw [List.forall₂_map_left_iff, List.forall₂_map_right_iff, List.forall₂_same]
    exact fun w _ => sends _ (whole ▸ ofWorker_sublist w log)
  have same : ((List.range workers).map fun w =>
      inputBatches lz4 columns predicate (share w)).flatten.Perm
        (inputBatches lz4 columns predicate parts) := by
    rw [← List.flatMap_def, ← List.flatMap_assoc]
    exact shares.flatMap_right _
  have arrive : g.returned.Perm (((List.range workers).map fun w => sent (share w)).map .ok) := by
    refine (perm_flatMap_ofWorker sentWorkers).trans (.of_eq ?_)
    rw [List.map_map, List.flatMap_congr fun w member => each w (List.mem_range.mp member)]
    exact List.flatMap_pure_eq_map _ _
  obtain ⟨arrived, returned, order⟩ := exists_batches_of_perm arrive
  have has : ∀ b ∈ inputBatches lz4 columns predicate parts, b.fields = columns.map .ofColumn :=
    fun b member => (inputBatches_filled reads filled b member).1
  obtain ⟨s, out, keys, consumed, made, outFields, rows, _⟩ := result_of_arrived sound
    (fun b member => has b (same.mem_iff.mp member)) ((distinctKeys_perm same).length_eq ▸ few)
    partials order
  exact ⟨s, out, keys, returned ▸ consumed, made, outFields, resultRows_perm rows same⟩

/-! ## Whatever is merged -/

/-- It is the aggregation of the same clauses, and its indices still have 32 bits. -/
structure Kept (s s' : AggregateExec) : Prop where
  schema : s'.outputSchema = s.outputSchema
  fields : s'.groupByFields = s.groupByFields
  narrow : (∀ entry ∈ s.groupToIndex, entry.2 < maxGroups) →
    ∀ entry ∈ s'.groupToIndex, entry.2 < maxGroups

theorem kept_absorbBatch
    (absorb : RecordBatch → List Nat → Nat → Accumulator → ExecResult Accumulator)
    (s : AggregateExec) (batch : RecordBatch) : s.Kept (s.absorbBatch absorb batch).2 := by
  refine ⟨outputSchema_absorbBatch absorb s batch, ?_, fun narrow => ?_⟩
  · unfold absorbBatch
    split
    · rfl
    · split <;> rfl
  · unfold absorbBatch
    split
    · exact narrow
    · split
      · exact (mem_assignGroups narrow _).1
      · exact narrow
      · exact narrow

theorem kept_consume {s s' : AggregateExec} {results : List BatchResult}
    (consumed : s.consume results = .ok s') : s.Kept s' := by
  induction results generalizing s with
  | nil =>
      cases consumed
      exact ⟨rfl, rfl, id⟩
  | cons result rest ih =>
      cases result with
      | error e => cases consumed
      | ok batch =>
          have first := kept_absorbBatch Accumulator.merge s batch
          rw [consume] at consumed
          split at consumed
          · rename_i next absorbed
            rw [absorbed] at first
            have later := ih consumed
            exact ⟨later.schema.trans first.schema, later.fields.trans first.fields,
              fun narrow => later.narrow (first.narrow narrow)⟩
          · cases consumed
          · cases consumed

/-- There is a value for each key in the first group column. -/
theorem length_of_groupArrays {s : AggregateExec} {arrays : List ArrayRef}
    (grouping : s.groupByFields ≠ []) (made : s.groupArrays = .ok arrays) :
    ∃ a ∈ arrays, a.length = s.groupToIndex.length := by
  rw [groupArrays, if_neg (by simpa using grouping), Outcome.bind_eq_ok] at made
  obtain ⟨ordered, found, converted⟩ := made
  have converted := Outcome.orPanic_eq_ok.mp converted
  have count := (Outcome.mapM_eq_ok found).length_eq
  rw [List.length_range] at count
  cases listed : s.groupByFields with
  | nil => exact (grouping listed).elim
  | cons f fields =>
      rw [listed, convertRows, Option.bind_eq_bind, Option.bind_eq_some_iff] at converted
      obtain ⟨values, read, converted⟩ := converted
      obtain ⟨rest, _, same⟩ := Option.bind_eq_some_iff.mp converted
      cases same
      have values' : values.length = ordered.length :=
        (forall₂_of_mapM read).length_eq.symm
      exact ⟨_, List.mem_cons_self, values'.trans count.symm⟩

/-- The output has a row for each group that has an index of its own. -/
theorem numRows_le_of_finish {s : AggregateExec} {out : RecordBatch}
    (grouping : s.groupByFields ≠ []) (narrow : ∀ entry ∈ s.groupToIndex, entry.2 < maxGroups)
    (made : s.finish.1 = .ok out) : out.numRows ≤ maxGroups := by
  unfold finish at made
  split at made
  · rename_i arrays grouped
    have few : s.groupToIndex.length ≤ maxGroups :=
      Nat.not_lt.mp fun many => groupArrays_ne_ok grouping narrow many arrays grouped
    dsimp only at made
    split at made
    · rename_i b created
      cases made
      obtain ⟨_, columns, _⟩ := RecordBatch.of_tryNew_eq_ok created
      obtain ⟨a, member, length⟩ := length_of_groupArrays grouping grouped
      have rows := out.lengths a (columns ▸ List.mem_append_left _ member)
      exact rows ▸ length ▸ few
    · cases made
    · cases made
  · cases made
  · cases made

/-! ## The root -/

/-- A root that merges returns what the final aggregation makes of all it has received. -/
theorem returned_merged {root : RootExec} {g : GatherExec} {merge : AggregateExec}
    {returned : List RecordBatch} (merges : root.merge = some merge) :
    root.returned g = some (.ok returned) ↔ g.hungUp = true ∧ ∃ s out,
      merge.consume g.returned = .ok s ∧ s.finish.1 = .ok out ∧ returned = [out] := by
  simp only [RootExec.returned, merges]
  cases merge.consume g.returned with
  | err e => simp
  | panic => simp
  | ok s =>
      cases hungUp : g.hungUp with
      | false => simp
      | true =>
          simp only [if_true, Option.some.injEq, Outcome.bind_eq_ok, Outcome.ok.injEq, true_and]
          constructor
          · rintro ⟨out, made, same⟩
            exact ⟨s, out, rfl, made, same.symm⟩
          · rintro ⟨_, out, rfl, made, same⟩
            exact ⟨out, made, same.symm⟩

end AggregateExec

end TinyOlap.Execution
