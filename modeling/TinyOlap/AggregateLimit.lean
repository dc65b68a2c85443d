import TinyOlap.Execution.Aggregation.LimitedAggregation
import TinyOlap.FirstGroups

/-!
# The law of LIMIT for queries with aggregation

The limit of a query with aggregation stands in each worker, above its partial aggregation and
below the final one. It decides which of its groups a worker sends, and what is returned in the
end is the answer of the rows of these groups. As the workers wait for the end of the parts, two of
them may divide these in any place. So the law of LIMIT holds under every schedule exactly if there
is only one worker, or if the first keys of the inserts, up to the limit, are together not more
than the limit. Without GROUP BY it holds for every limit but zero: the final aggregation then
returns its one row all the same.
-/

set_option autoImplicit false

namespace TinyOlap

open Library Library.WorkPool Catalog Arrow Storage Frontend Physical Execution

variable {lz4 : Lz4} {schema : TableSchema}

namespace AggregateQuery

/-! ## The rows that count -/

section Shares

variable {q : AggregateQuery schema} {columns : List ColumnSchema} {p : Option PhysicalExpr}
  {parts : List PartDir} {workers limit : Nat} {share : Nat → List PartDir}

/-- The rows of the parts that each worker was handed. -/
def shareRows (lz4 : Lz4) (schema : TableSchema) (workers : Nat) (share : Nat → List PartDir) :
    List (List NamedRow) :=
  (List.range workers).map fun w => (share w).flatMap (partRows lz4 schema)

/-- What counts of a share with a limit are the matching rows of the first groups. -/
theorem namedRows_share
    (sound : AggregateExec.Sound q.aggregates q.groupByFields (columns.map Field.ofColumn))
    (reads : Reads schema columns p q.groupNames)
    (means : ∀ row, p.all (holds row) = q.selection.all (WherePredicate.holds row))
    (filled : ∀ partDir ∈ parts, Filled lz4 schema partDir) :
    (AggregateExec.cutBatches q.groupByFields limit
        (AggregateExec.inputBatches lz4 columns p parts)).flatMap RecordBatch.namedRows =
      (q.firstGroups limit (parts.flatMap (partRows lz4 schema))).map
        (restrictRow (columns.map ColumnSchema.name)) := by
  have present := hasNames_matching (q := q) reads filled
  rw [AggregateExec.namedRows_cutBatches sound.grouped
      fun b member => (AggregateExec.inputBatches_filled reads filled b member).1,
    namedRows_inputBatches reads means filled, name_groupByFields,
    map_selectCells_restrictRow present reads.selected, List.filter_map, firstGroups_eq, keysIn]
  congr 1
  refine List.filter_congr fun row member => ?_
  rw [Function.comp_apply, selectCells_restrictRow (present row member) reads.selected]

/-- **What is returned with a limit is an answer**: that of the rows of the first groups of each
worker. -/
theorem isAnswer_of_shares (distinct : schema.Distinct) (ordered : q.InOrder) (clear : q.Clear)
    (sound : AggregateExec.Sound q.aggregates q.groupByFields (columns.map Field.ofColumn))
    (reads : Reads schema columns p q.groupNames)
    (arguments : ∀ call ∈ q.calls, call.ref.column.name ∈ columns.map ColumnSchema.name)
    (means : ∀ row, p.all (holds row) = q.selection.all (WherePredicate.holds row))
    (filled : ∀ w < workers, ∀ partDir ∈ share w, Filled lz4 schema partDir)
    {out : RecordBatch} {keys : List GroupKey}
    (outFields : out.fields = q.groupByFields ++
      q.aggregates.map fun a => (a.accumulator false).outputField)
    (result : ResultRows (fun a values v => a.Describes values v) q.aggregates q.groupByFields
      ((List.range workers).flatMap fun w => AggregateExec.cutBatches q.groupByFields limit
        (AggregateExec.inputBatches lz4 columns p (share w))) keys out.rows) :
    q.IsAnswer ((shareRows lz4 schema workers share).flatMap (q.firstGroups limit)) out := by
  have matched : q.matching ((shareRows lz4 schema workers share).flatMap (q.firstGroups limit)) =
      (shareRows lz4 schema workers share).flatMap (q.firstGroups limit) := by
    rw [matching_flatMap]
    exact List.flatMap_congr fun rows _ => matching_firstGroups limit rows
  have inputs : ((List.range workers).flatMap fun w => AggregateExec.cutBatches q.groupByFields
      limit (AggregateExec.inputBatches lz4 columns p (share w))).flatMap RecordBatch.namedRows =
      (q.matching ((shareRows lz4 schema workers share).flatMap (q.firstGroups limit))).map
        (restrictRow (columns.map ColumnSchema.name)) := by
    rw [matched, List.flatMap_assoc, shareRows, List.flatMap_map, List.map_flatMap]
    exact List.flatMap_congr fun w member =>
      namedRows_share sound reads means (filled w (List.mem_range.mp member))
  have present : ∀ row ∈ q.matching ((shareRows lz4 schema workers share).flatMap
      (q.firstGroups limit)), HasNames (columns.map ColumnSchema.name) row := by
    intro row member
    rw [matched] at member
    obtain ⟨rows, listed, here⟩ := List.mem_flatMap.mp member
    obtain ⟨w, known, rfl⟩ := List.mem_map.mp listed
    obtain ⟨partDir, handed, inside⟩ :=
      List.mem_flatMap.mp (List.mem_of_mem_filter (List.mem_of_mem_filter here))
    exact reads.hasNames (filled w (List.mem_range.mp known) partDir handed) inside
  refine isAnswer_of_result distinct ordered clear sound.grouped (fun b member => ?_) inputs present
    reads.selected (fun a member => ?_) outFields result
  · obtain ⟨w, known, here⟩ := List.mem_flatMap.mp member
    exact AggregateExec.fields_cutBatches (fun b inside => (AggregateExec.inputBatches_filled reads
      (filled w (List.mem_range.mp known)) b inside).1) b here
  · obtain ⟨call, inside, rfl⟩ := List.mem_map.mp member
    rw [AggregateCall.aggregate, columnName_aggregateOf]
    exact arguments call inside

/-- What is returned is the answer of the rows that count. -/
def ReturnsShares (q : AggregateQuery schema) (lz4 : Lz4) (limit workers : Nat)
    (share : Nat → List PartDir) (root : RootExec) (g : GatherExec) : Prop :=
  ∃ out, root.returned g = some (.ok [out]) ∧
    q.IsAnswer ((shareRows lz4 schema workers share).flatMap (q.firstGroups limit)) out

section Returned

variable {root : RootExec} {g : GatherExec}

/-- Of workers that have received these shares and have sent the first rows of their partial
results, the answer is returned. -/
theorem returnsShares_of_received (distinct : schema.Distinct) (ordered : q.InOrder)
    (clear : q.Clear)
    (sound : AggregateExec.Sound q.aggregates q.groupByFields (columns.map Field.ofColumn))
    (reads : Reads schema columns p q.groupNames)
    (arguments : ∀ call ∈ q.calls, call.ref.column.name ∈ columns.map ColumnSchema.name)
    (means : ∀ row, p.all (holds row) = q.selection.all (WherePredicate.holds row))
    (filled : ∀ partDir ∈ parts, Filled lz4 schema partDir)
    (few : (AggregateExec.distinctKeys q.groupByFields
      (AggregateExec.inputBatches lz4 columns p parts)).length ≤ maxGroups)
    (positive : 0 < limit) {sent : List PartDir → RecordBatch}
    (sends : ∀ handed, handed.Sublist parts → AggregateExec.PartialOf q.aggregates q.groupByFields
      (AggregateExec.inputBatches lz4 columns p handed) (sent handed))
    (merges : root.merge = some (AggregateExec.mergeStart q.aggregates q.groupByFields))
    (hungUp : g.hungUp = true) (sentWorkers : ∀ entry ∈ g.received, entry.1 < workers)
    (inside : ∀ w, (share w).Sublist parts)
    (each : ∀ w < workers, ofWorker w g.received =
      (limitBatches limit [sent (share w)]).map .ok) :
    q.ReturnsShares lz4 limit workers share root g := by
  have filledShare : ∀ w < workers, ∀ partDir ∈ share w, Filled lz4 schema partDir :=
    fun w _ partDir member => filled partDir ((inside w).subset member)
  have fewShares : (AggregateExec.distinctKeys q.groupByFields ((List.range workers).flatMap
      fun w => AggregateExec.inputBatches lz4 columns p (share w))).length ≤ maxGroups := by
    refine (AggregateExec.distinctKeys_length_le fun b member => ?_).trans few
    obtain ⟨w, _, here⟩ := List.mem_flatMap.mp member
    exact AggregateExec.inputBatches_subset (inside w).subset here
  obtain ⟨s, out, keys, consumed, made, outFields, result⟩ :=
    AggregateExec.exists_merged_limited sound positive (fun w _ => sends _ (inside w))
      (fun w here b member =>
        (AggregateExec.inputBatches_filled reads (filledShare w here) b member).1)
      fewShares sentWorkers each
  exact ⟨out, (AggregateExec.returned_merged merges).mpr ⟨hungUp, s, out, consumed, made, rfl⟩,
    isAnswer_of_shares distinct ordered clear sound reads arguments means filledShare outFields
      result⟩

/-- If nothing has been received there are no groups, or the one that there is without
GROUP BY. -/
theorem exists_returned_of_nothing
    (sound : AggregateExec.Sound q.aggregates q.groupByFields (columns.map Field.ofColumn))
    (merges : root.merge = some (AggregateExec.mergeStart q.aggregates q.groupByFields))
    (hungUp : g.hungUp = true) (nothing : g.returned = []) : ∃ out,
      root.returned g = some (.ok [out]) ∧
        out.rows.length = if q.groupBy = [] then 1 else 0 := by
  have noBatch : ∀ b ∈ ([] : List (List RecordBatch)).flatten,
      b.fields = columns.map Field.ofColumn := by simp
  obtain ⟨s, out, keys, consumed, made, _, result, _⟩ :=
    AggregateExec.result_of_arrived sound noBatch (Nat.zero_le _) .nil (.refl _)
  refine ⟨out, (AggregateExec.returned_merged merges).mpr
    ⟨hungUp, s, out, nothing ▸ consumed, made, rfl⟩, ?_⟩
  rw [← result.2.length_eq, result.1.length_eq, AggregateExec.resultKeys]
  simp only [groupByFields, List.map_eq_nil_iff]
  split <;> rfl

end Returned

end Shares

/-! ## Runs under a limit -/

variable {q : AggregateQuery schema} {batches : List InsertBatch} {tableDir : PartList}
  {query : Query} {clause : LimitClause} {limit workers : Nat}

/-- **How a query with aggregation runs under a limit.** It ends without a panic. With a limit of
zero there are no groups left, or only the one that there is without GROUP BY. With another limit
the workers divide the parts, and the answer is that of the rows of the first groups of each. Two
workers may divide the parts in any place. -/
structure LimitedRuns (q : AggregateQuery schema) (lz4 : Lz4) (limit workers : Nat)
    (tableDir : PartList) (root : RootExec) (start : GatherExec) : Prop where
  safe : ∃ bound, ∀ events g, start.run lz4 events = some g → .crashed ∉ g.workers ∧
    events.length ≤ bound ∧ (g.hungUp = false → ∃ event g', g.run lz4 [event] = some g')
  none : limit = 0 → ∀ events g, start.run lz4 events = some g → g.hungUp = true → ∃ out,
    root.returned g = some (.ok [out]) ∧ out.rows.length = if q.groupBy = [] then 1 else 0
  divided : 0 < limit → ∀ events g, start.run lz4 events = some g → g.hungUp = true → ∃ share,
    ((List.range workers).flatMap share).Perm (listParts tableDir) ∧
      q.ReturnsShares lz4 limit workers share root g
  anywhere : 0 < limit → 1 < workers → ∀ first second, listParts tableDir = first ++ second →
    ∃ events g, start.run lz4 events = some g ∧ g.hungUp = true ∧
      q.ReturnsShares lz4 limit workers (division first second) root g

theorem exists_limitedRuns (written : q.WrittenAs query) (distinct : schema.Distinct)
    (ordered : q.InOrder) (clear : q.Clear) (supported : ∀ v ∈ q.selection, v.Supported)
    (stored : StoredAs lz4 schema tableDir batches) (filled : ∀ batch ∈ batches, 0 < batch.numRows)
    (few : q.Few (insertedRows schema batches)) (read : Logical.lowerLimit clause = .ok limit)
    (positive : 0 < workers) :
    ∃ root start, runSelect (.query (limited query clause)) schema tableDir = .ok root ∧
      GatherExec.new root.parts workers root.child = .ok start ∧
      q.LimitedRuns lz4 limit workers tableDir root start := by
  obtain ⟨input, p, columns, plan, names, known, planned⟩ := q.exists_root written
  obtain ⟨reads, arguments⟩ := reads_columns distinct supported plan names known
  have sound := sound clear distinct known reads.selected arguments
  have means := plan.means supported
  have parts := stored.filled filled
  have rows := stored.partRows_perm distinct reads.someColumn
  have few' := few_inputBatches sound reads means parts rows few
  have labels : q.labels = aggregateNames q.aggregates q.groupByFields := by
    rw [aggregateNames, name_groupByFields]
    exact ordered
  obtain ⟨sent, sends, base, weight, delivers, waiting⟩ :=
    AggregateExec.exists_delivers_limited reads parts sound few' limit
  rw [← labels] at delivers waiting
  have runs := runSelect_limited written.limit read (planned tableDir)
  refine ⟨_, _, runs, if_neg (Nat.ne_of_gt positive), ends_of_delivers delivers workers, ?_, ?_, ?_⟩
  · rintro rfl events g ran hungUp
    obtain ⟨log, _, _, sentWorkers, each, _⟩ := received_of_hungUp delivers ran hungUp
    refine exists_returned_of_nothing sound rfl hungUp ?_
    have arrive := perm_flatMap_ofWorker sentWorkers
    rw [List.flatMap_eq_nil_iff.mpr fun w member => each w (List.mem_range.mp member)] at arrive
    exact arrive.eq_nil
  · intro some events g ran hungUp
    obtain ⟨exhausts, _⟩ := waiting some
    obtain ⟨log, _, logWorkers, sentWorkers, each, all⟩ := received_of_hungUp delivers ran hungUp
    have whole := all exhausts positive
    refine ⟨fun w => ofWorker w log, whole ▸ (perm_flatMap_ofWorker logWorkers).symm, ?_⟩
    exact returnsShares_of_received distinct ordered clear sound reads arguments means parts few'
      some sends rfl hungUp sentWorkers (fun w => whole ▸ ofWorker_sublist w log) each
  · intro some several first second split
    obtain ⟨exhausts, waits⟩ := waiting some
    have room : 0 < channelBound := by decide
    obtain ⟨events, g, ran, hungUp, sentWorkers, each⟩ :=
      exists_division delivers exhausts waits room several split
    exact ⟨events, g, ran, hungUp, returnsShares_of_received distinct ordered clear sound reads
      arguments means parts few' some sends rfl hungUp sentWorkers
      (fun w => split ▸ division_sublist first second w) each⟩

/-! ## The law -/

/-- **The law of LIMIT for a query with aggregation**: what is returned are rows of an answer to
the query without it, no row twice, and as many as there are, up to the limit. -/
def KeepsLimit (q : AggregateQuery schema) (limit : Nat) (rows : List NamedRow)
    (returned : List RecordBatch) : Prop :=
  ∃ all, q.AnswerRows rows all ∧ TinyOlap.KeepsLimit limit all returned

/-- The keys of the matching rows of each insert. -/
def insertKeys (q : AggregateQuery schema) (batches : List InsertBatch) : List (List GroupKey) :=
  batches.map fun batch => q.keysIn (tableRows schema batch.toRecordBatch)

/-- The limit does no harm: there is one group in any case, or one worker, or the first keys of the
inserts, up to the limit, are together not more than the limit. -/
def LimitFits (q : AggregateQuery schema) (limit workers : Nat) (batches : List InsertBatch) :
    Prop :=
  if q.groupBy = [] then limit ≠ 0
  else workers = 1 ∨ (cutKeys limit (q.insertKeys batches)).length ≤ limit

instance : Decidable (q.LimitFits limit workers batches) :=
  inferInstanceAs (Decidable (if q.groupBy = [] then limit ≠ 0
    else workers = 1 ∨ (cutKeys limit (q.insertKeys batches)).length ≤ limit))

theorem keysIn_flatMap {α : Type} (f : α → List NamedRow) (l : List α) :
    q.keysIn (l.flatMap f) = (l.map fun a => q.keysIn (f a)).flatten := by
  rw [keysIn, matching_flatMap, List.map_flatMap, ← List.flatMap_def]
  rfl

theorem columns_ne_nil (q : AggregateQuery schema) : schema.columns ≠ [] := by
  have known : ∀ ref : ColumnRef schema, schema.columns ≠ [] := fun ref =>
    List.ne_nil_of_mem (TableSchema.find_some ref.found).1
  rcases q.nonempty with groups | calls
  · obtain ⟨ref, _⟩ := List.exists_mem_of_ne_nil _ groups
    exact known ref
  · obtain ⟨call, _⟩ := List.exists_mem_of_ne_nil _ calls
    exact known call.ref

/-- The keys of the parts are those of the inserts. -/
theorem length_cutKeys_parts (distinct : schema.Distinct)
    (stored : StoredAs lz4 schema tableDir batches) :
    (cutKeys limit ((listParts tableDir).map fun partDir =>
        q.keysIn (partRows lz4 schema partDir))).length =
      (cutKeys limit (q.insertKeys batches)).length := by
  obtain ⟨order, perm, written⟩ := stored.exists_order
  have same : ((listParts tableDir).map fun partDir => q.keysIn (partRows lz4 schema partDir)) =
      q.insertKeys order := map_eq_of_forall₂ (written.flip.imp fun batch partDir made =>
    congrArg q.keysIn (partRows_of_written distinct made q.columns_ne_nil))
  have lists : (q.insertKeys order).Perm (q.insertKeys batches) := perm.map _
  rw [same]
  exact Nat.le_antisymm (length_cutKeys_le_of_subset lists.subset)
    (length_cutKeys_le_of_subset lists.symm.subset)

section Iff

variable {root : RootExec} {start : GatherExec} {rows : List NamedRow}

/-- A law that is kept says how many rows are returned on a schedule. -/
theorem length_of_keeps (keeps : ∀ events g, start.run lz4 events = some g → g.hungUp = true →
      ∃ returned, root.returned g = some (.ok returned) ∧ q.KeepsLimit limit rows returned)
    {events : List Event} {g : GatherExec} (ran : start.run lz4 events = some g)
    (hungUp : g.hungUp = true) {out : RecordBatch} (sent : root.returned g = some (.ok [out])) :
    out.rows.length ≤ limit := by
  obtain ⟨_, same, all, _, _, count⟩ := keeps events g ran hungUp
  cases sent.symm.trans same
  rw [List.flatMap_singleton] at count
  omega

/-- **The limit does no harm if the law is kept** under every schedule. -/
theorem LimitedRuns.fits (runs : q.LimitedRuns lz4 limit workers tableDir root start)
    (distinct : schema.Distinct) (stored : StoredAs lz4 schema tableDir batches)
    (positive : 0 < workers)
    (keeps : ∀ events g, start.run lz4 events = some g → g.hungUp = true →
      ∃ returned, root.returned g = some (.ok returned) ∧ q.KeepsLimit limit rows returned) :
    q.LimitFits limit workers batches := by
  rw [LimitFits]
  split
  · rename_i grouping
    rintro rfl
    obtain ⟨bound, safe⟩ := runs.safe
    obtain ⟨events, g, ran, hungUp⟩ := exists_hungUp (fun events g steps =>
      (safe events g steps).2) (rfl : start.run lz4 [] = some start)
    obtain ⟨out, sent, one⟩ := runs.none rfl events g ran hungUp
    have none := length_of_keeps keeps ran hungUp sent
    rw [one, if_pos grouping] at none
    cases none
  · rename_i grouping
    by_contra none
    simp only [not_or, Nat.not_le] at none
    obtain ⟨several, many⟩ := none
    have some : 0 < limit := by
      refine Nat.pos_of_ne_zero ?_
      rintro rfl
      rw [cutKeys_zero] at many
      cases many
    rw [← length_cutKeys_parts distinct stored] at many
    -- two workers divide the parts so that they keep too many keys
    obtain ⟨before, after, split, exceeds⟩ := exists_halves many
    obtain ⟨first, second, parts, rfl, rfl⟩ := List.map_eq_append_iff.mp split
    obtain ⟨events, g, ran, hungUp, out, sent, answer⟩ :=
      runs.anywhere some (by omega) first second parts
    have count := length_of_keeps keeps ran hungUp sent
    rw [length_rows_of_cut grouping answer] at count
    have shares : [(first.map fun partDir => q.keysIn (partRows lz4 schema partDir)).flatten,
        (second.map fun partDir => q.keysIn (partRows lz4 schema partDir)).flatten] ⊆
        (shareRows lz4 schema workers (division first second)).map q.keysIn := by
      have share : ∀ w < workers, q.keysIn ((division first second w).flatMap
          (partRows lz4 schema)) ∈ (shareRows lz4 schema workers (division first second)).map
            q.keysIn := fun w inside =>
        List.mem_map_of_mem (List.mem_map_of_mem (List.mem_range.mpr inside))
      rw [← keysIn_flatMap, ← keysIn_flatMap]
      refine List.cons_subset.mpr ⟨share 0 positive, List.cons_subset.mpr ⟨share 1 ?_, ?_⟩⟩
      · omega
      · exact List.nil_subset _
    have more := Nat.lt_of_lt_of_le exceeds (length_cutKeys_le_of_subset shares)
    omega

/-- **The law is kept if the limit does no harm.** -/
theorem LimitedRuns.keeps (runs : q.LimitedRuns lz4 limit workers tableDir root start)
    (distinct : schema.Distinct) (stored : StoredAs lz4 schema tableDir batches)
    {full : RecordBatch} (whole : q.IsAnswer (insertedRows schema batches) full)
    (fits : q.LimitFits limit workers batches) {events : List Event} {g : GatherExec}
    (ran : start.run lz4 events = some g) (hungUp : g.hungUp = true) :
    ∃ returned, root.returned g = some (.ok returned) ∧
      q.KeepsLimit limit (insertedRows schema batches) returned := by
  rw [LimitFits] at fits
  rcases Nat.eq_zero_or_pos limit with rfl | some
  · obtain ⟨out, sent, count⟩ := runs.none rfl events g ran hungUp
    refine ⟨[out], sent, full.rows, whole.2, ?_⟩
    have none : out.rows = [] := by
      rw [← List.length_eq_zero_iff, count]
      split at fits
      · exact (fits rfl).elim
      · rename_i grouping
        exact if_neg grouping
    simp [TinyOlap.KeepsLimit, none]
  · obtain ⟨share, perm, out, sent, answer⟩ := runs.divided some events g ran hungUp
    have all : (shareRows lz4 schema workers share).flatten.Perm
        (insertedRows schema batches) := by
      rw [shareRows, ← List.flatMap_def, ← List.flatMap_assoc]
      exact (perm.flatMap_right _).trans (stored.partRows_perm distinct q.columns_ne_nil)
    refine ⟨[out], sent, ?_⟩
    by_cases grouping : q.groupBy = []
    · exact keepsLimit_whole grouping some answer all
    · rw [if_neg grouping] at fits
      refine keepsLimit_of_cut grouping ?_ answer all whole
      rcases fits with rfl | fits
      · exact length_cutKeys_singleton_le limit _
      · -- the keys of a worker are those of the parts that it was handed
        refine (length_cutKeys_le fun keys member => ?_).trans
          (length_cutKeys_parts distinct stored ▸ fits)
        obtain ⟨_, listed, rfl⟩ := List.mem_map.mp member
        obtain ⟨w, inside, rfl⟩ := List.mem_map.mp listed
        refine ⟨_, List.map_subset _ fun partDir handed => ?_, keysIn_flatMap _ _⟩
        exact perm.subset (List.mem_flatMap.mpr ⟨w, inside, handed⟩)

end Iff

/-- **When a query with aggregation keeps the law of LIMIT.** -/
theorem yields_keepsLimit_iff (written : q.WrittenAs query) (distinct : schema.Distinct)
    (ordered : q.InOrder) (clear : q.Clear) (supported : ∀ v ∈ q.selection, v.Supported)
    (stored : StoredAs lz4 schema tableDir batches) (filled : ∀ batch ∈ batches, 0 < batch.numRows)
    (few : q.Few (insertedRows schema batches)) (read : Logical.lowerLimit clause = .ok limit)
    (positive : 0 < workers) :
    QueryYields lz4 schema (limited query clause) tableDir workers
      (q.KeepsLimit limit (insertedRows schema batches)) ↔ q.LimitFits limit workers batches := by
  obtain ⟨root, start, accepted, created, runs⟩ := exists_limitedRuns written distinct ordered
    clear supported stored filled few read positive
  obtain ⟨_, _, _, _, _, full, _, whole⟩ := QueryYields.exists_returned
    (answers_of_inOrder written distinct ordered clear supported stored filled few positive)
  constructor
  · rintro ⟨root', start', accepted', created', _, keeps⟩
    cases accepted.symm.trans accepted'
    cases created.symm.trans created'
    exact runs.fits distinct stored positive keeps
  · exact fun fits => ⟨root, start, accepted, created, runs.safe, fun _ _ ran hungUp =>
      runs.keeps distinct stored whole fits ran hungUp⟩

end AggregateQuery

/-! ## The law for all queries -/

/-- The column `a` of `pairSchema`. -/
def pairColumn : ColumnRef pairSchema := pairCount.ref

/-- The row `(1, 3)`. -/
def otherPair : InsertBatch where
  fields := [⟨"a", .data (.int .i64)⟩, ⟨"b", .data (.int .i64)⟩]
  columns := [⟨.data (.int .i64), [MachineInt.wrap true 63 1]⟩,
    ⟨.data (.int .i64), [MachineInt.wrap true 63 3]⟩]
  numRows := 1
  typed := rfl
  lengths := by decide
  offsets := by decide

/-- `SELECT a FROM t LIMIT 1`. -/
def firstOfPairs : Query :=
  limited (rowQuery pairSchema [.column pairColumn none] none none) limitOne

/-- The plan of `SELECT a FROM t LIMIT 1`. -/
def firstOfPairsPlan : PhysicalPlan :=
  .limit 1 (.project [.column "a"] (.fullScan "t" ["a"]))

theorem planSelect_firstOfPairs :
    planSelect (.query firstOfPairs) pairSchema = .ok firstOfPairsPlan := by
  let plan : Logical.LogicalPlan := .limit 1 (.project [.column "t" "a"] (.scan "t"))
  have lowered : Logical.lower (.query firstOfPairs) pairSchema = .ok plan := rfl
  have optimized : Logical.optimize pairSchema plan = .ok plan := rfl
  have columns : orderedSet (collectColumns plan) = ["a"] := by
    simp [plan, collectColumns, collectExprColumns, orderedSet]
  rw [planSelect_of_lower lowered, planLogical, optimized, Outcome.ok_bind, Physical.lower,
    columns]
  rfl

end TinyOlap
