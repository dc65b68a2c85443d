import TinyOlap.Execution.Aggregation.Absorb

/-!
# The index of a group

Whatever batches an aggregation with GROUP BY takes, its table is a numbering of the distinct
keys seen so far in the order of first appearance, the index of a row is the number of its
key, and every accumulator has as many slots as there are keys. A number that is given once
stays. So a batch is taken without a panic, and the columns of the output have the same
length. This holds in both phases, as long as the indices do not run out.
-/

set_option autoImplicit false

namespace TinyOlap.Execution

open Library Catalog Arrow

/-! ## The phases -/

/-- The two phases of an aggregation. -/
inductive AggregatePhase where
  | update
  | merge

namespace AggregatePhase

/-- How an accumulator takes a batch. -/
def absorb : AggregatePhase → RecordBatch → List Nat → Nat → Accumulator → ExecResult Accumulator
  | update => Accumulator.update
  | merge => Accumulator.merge

/-- The operator as it is built. -/
def start : AggregatePhase → List Accumulator → List Field → AggregateExec
  | update => HashAggregateExec.new
  | merge => MergeAggregateExec.new

/-- A batch with these fields has the column that the accumulator takes. -/
def TakesFrom : AggregatePhase → List Field → Accumulator → Prop
  | update => Accumulator.ReadsFrom
  | merge => Accumulator.MergesFrom

theorem takesFrom_bare {phase : AggregatePhase} {fields : List Field} {acc : Accumulator} :
    phase.TakesFrom fields acc.bare ↔ phase.TakesFrom fields acc := by
  cases phase with
  | update => exact Accumulator.readsFrom_bare
  | merge => exact Accumulator.mergesFrom_bare

theorem absorbed {phase : AggregatePhase} {acc : Accumulator} {batch : RecordBatch}
    {groupIndices : List Nat} {numGroups : Nat} (takes : phase.TakesFrom batch.fields acc)
    (even : acc.Even) (known : ∀ gi ∈ groupIndices, gi < numGroups) :
    ∃ acc', phase.absorb batch groupIndices numGroups acc = .ok acc' ∧
      acc.Absorbed numGroups acc' := by
  cases phase with
  | update => exact Accumulator.update_absorbed takes rfl even known
  | merge => exact Accumulator.merge_absorbed takes rfl even known

theorem start_grouped {groupByFields : List Field} (grouping : groupByFields ≠ [])
    (phase : AggregatePhase) (accumulators : List Accumulator) :
    phase.start accumulators groupByFields = HashAggregateExec.new accumulators groupByFields := by
  cases phase with
  | update => rfl
  | merge => rw [start, MergeAggregateExec.new, if_neg (by simpa using grouping)]

/-- The batch has the columns that the planner has seen to: those of the GROUP BY clause and
those of the accumulators, with the types for which these were built. -/
structure Planned (phase : AggregatePhase) (accumulators : List Accumulator)
    (groupByFields : List Field) (batch : RecordBatch) : Prop where
  grouped : ∀ f ∈ groupByFields, Accumulator.FieldOf batch.fields f.name f.dataType
  taken : ∀ acc ∈ accumulators, phase.TakesFrom batch.fields acc

end AggregatePhase

/-! ## The invariant -/

namespace AggregateExec

/-- **The invariant.** The table numbers the distinct keys seen so far, and every accumulator
has a slot for each. -/
structure Numbers (accumulators : List Accumulator) (groupByFields : List Field)
    (seen : List GroupKey) (s : AggregateExec) : Prop where
  fields : s.groupByFields = groupByFields
  schema : s.outputSchema = groupByFields ++ accumulators.map Accumulator.outputField
  table : s.groupToIndex = seen.eraseDups.zipIdx
  slots : List.Forall₂ (fun acc acc' : Accumulator => acc'.bare = acc ∧ acc'.Even ∧
    acc'.slotCount = seen.eraseDups.length) accumulators s.accumulators

variable {phase : AggregatePhase} {accumulators : List Accumulator} {groupByFields : List Field}
  {seen : List GroupKey} {s : AggregateExec} {batch : RecordBatch}

theorem numbers_start (fresh : ∀ acc ∈ accumulators, acc.bare = acc) :
    (HashAggregateExec.new accumulators groupByFields).Numbers accumulators groupByFields [] := by
  refine ⟨rfl, rfl, rfl, List.forall₂_same.mpr fun acc member => ⟨fresh acc member, ?_⟩⟩
  rw [← fresh acc member]
  cases acc with
  | min t c slots => exact ⟨⟨Nat.zero_le _, rfl⟩, rfl⟩
  | max t c slots => exact ⟨⟨Nat.zero_le _, rfl⟩, rfl⟩
  | count c counts => exact ⟨trivial, rfl⟩
  | sum t c sums => exact ⟨trivial, rfl⟩
  | avg c slots isPartial => exact ⟨trivial, rfl⟩

/-- **A batch keeps the invariant.** -/
theorem Numbers.absorbBatch (numbers : s.Numbers accumulators groupByFields seen)
    (grouping : groupByFields ≠ []) (planned : phase.Planned accumulators groupByFields batch)
    (few : (seen ++ keysOf groupByFields batch).eraseDups.length ≤ maxGroups) :
    ∃ s', s.absorbBatch phase.absorb batch = (.ok (), s') ∧
      s'.Numbers accumulators groupByFields (seen ++ keysOf groupByFields batch) := by
  have found : s.groupKeys batch = .ok (keysOf groupByFields batch) := by
    rw [← numbers.fields]
    exact groupKeys_eq_ok (numbers.fields ▸ planned.grouped) rfl
  have known : ∀ gi ∈ (keysOf groupByFields batch).map fun k =>
      (seen ++ keysOf groupByFields batch).eraseDups.idxOf k,
      gi < (seen ++ keysOf groupByFields batch).eraseDups.length := by
    intro gi member
    obtain ⟨k, inside, rfl⟩ := List.mem_map.mp member
    exact List.idxOf_lt_length_of_mem (List.mem_eraseDups.mpr (by simp [inside]))
  obtain ⟨accumulators', taken, both⟩ := absorbBatch_grouped phase.absorb
    (numbers.fields ▸ grouping) numbers.table found few (R := fun acc acc' =>
      acc.Absorbed (seen ++ keysOf groupByFields batch).eraseDups.length acc') (by
    intro acc' member
    obtain ⟨acc, source, bare, even, _⟩ := exists_of_mem_right numbers.slots member
    exact AggregatePhase.absorbed
      (AggregatePhase.takesFrom_bare.mp (bare ▸ planned.taken acc source)) even known)
  refine ⟨_, taken, numbers.fields, numbers.schema, rfl, ?_⟩
  refine forall₂_trans numbers.slots both ?_
  rintro acc mid acc' ⟨bare, _, slots⟩ absorbed
  refine ⟨absorbed.bare.trans bare, absorbed.even, ?_⟩
  rw [absorbed.slots, slots]
  exact Nat.max_eq_right (eraseDups_prefix_append _ _).length_le

/-- **Batches keep the invariant**, one after the other. -/
theorem Numbers.takeBatches (numbers : s.Numbers accumulators groupByFields seen)
    (grouping : groupByFields ≠ []) {batches : List RecordBatch}
    (planned : ∀ batch ∈ batches, phase.Planned accumulators groupByFields batch)
    (few : (seen ++ batches.flatMap (keysOf groupByFields)).eraseDups.length ≤ maxGroups) :
    ∃ s', s.takeBatches phase.absorb batches = .ok s' ∧
      s'.Numbers accumulators groupByFields (seen ++ batches.flatMap (keysOf groupByFields)) := by
  induction batches generalizing s seen with
  | nil => exact ⟨s, rfl, by simpa using numbers⟩
  | cons batch rest ih =>
      rw [List.flatMap_cons, ← List.append_assoc] at few ⊢
      have fewer := (eraseDups_prefix_append (seen ++ keysOf groupByFields batch)
        (rest.flatMap (keysOf groupByFields))).length_le.trans few
      obtain ⟨next, taken, numbers'⟩ :=
        numbers.absorbBatch grouping (planned batch (by simp)) fewer
      obtain ⟨s', later, numbers''⟩ :=
        ih numbers' (fun b member => planned b (by simp [member])) few
      refine ⟨s', ?_, numbers''⟩
      rw [AggregateExec.takeBatches, taken]
      exact later

/-! ## The output -/

/-- What is made at the end, of a table that numbers keys and accumulators with a slot for
each. Without GROUP BY the only key is the empty one. -/
theorem finish_eq_ok {keys : List GroupKey}
    (table : s.groupByFields ≠ [] → s.groupToIndex = keys.zipIdx)
    (some : s.groupByFields ≠ [] ∨ s.accumulators ≠ [])
    (schema : s.outputSchema = s.groupByFields ++ s.accumulators.map Accumulator.outputField)
    (typed : ∀ key ∈ keys, KeyTyped s.groupByFields key)
    (slots : ∀ acc ∈ s.accumulators, acc.slotCount = keys.length) :
    ∃ out arrays, s.finish.1 = .ok out ∧ s.finish.2.emitted = true ∧
      out.fields = s.outputSchema ∧ out.numRows = keys.length ∧
      out.columns = arrays ++ s.accumulators.map Accumulator.materialize ∧
      arrays.length = s.groupByFields.length ∧ RecordBatch.rowsOf keys.length arrays = keys := by
  obtain ⟨arrays, converted, types, lengths, rows⟩ := convertRows_eq_some typed
  have groupArrays : s.groupArrays = .ok arrays := by
    rw [groupArrays]
    split
    · rename_i whole
      rw [List.isEmpty_iff.mp whole] at converted
      cases converted
      rfl
    · rename_i grouping
      rw [table (by simpa using grouping), List.length_zipIdx, ordered_zipIdx, Outcome.ok_bind,
        converted]
      rfl
  have count : arrays.length = s.groupByFields.length := by simpa using congrArg List.length types
  have some : arrays ++ s.accumulators.map Accumulator.materialize ≠ [] := by
    intro none
    obtain ⟨noGroup, noSlot⟩ := List.append_eq_nil_iff.mp none
    rw [noGroup, List.length_nil] at count
    rcases some with grouping | slot
    · exact grouping (List.length_eq_zero_iff.mp count.symm)
    · exact slot (List.map_eq_nil_iff.mp noSlot)
  have typed' : (arrays ++ s.accumulators.map Accumulator.materialize).map ArrayRef.type =
      s.outputSchema.map Field.dataType := by
    rw [schema, List.map_append, List.map_append, types, List.map_map, List.map_map]
    congr 1
    exact List.map_congr_left fun acc _ => acc.type_materialize
  have lengths' : ∀ a ∈ arrays ++ s.accumulators.map Accumulator.materialize,
      a.length = keys.length := by
    intro a member
    rcases List.mem_append.mp member with group | slot
    · exact lengths a group
    · obtain ⟨acc, inside, rfl⟩ := List.mem_map.mp slot
      rw [acc.length_materialize, slots acc inside]
  have made := RecordBatch.tryNew_eq_ok some typed' lengths'
  refine ⟨⟨_, _, _, typed', lengths'⟩, arrays, ?_, ?_, rfl, rfl, rfl, count, rows⟩
  · simp only [finish, groupArrays, made]
  · simp only [finish, groupArrays, made]

/-! ## All batches -/

theorem zipIdx_prefix {α : Type} {l l' : List α} (begins : l <+: l') : l.zipIdx <+: l'.zipIdx := by
  obtain ⟨more, rfl⟩ := begins
  rw [List.zipIdx_append]
  exact List.prefix_append _ _

/-- A row gets the number of its key. -/
theorem mem_zipIdx_idxOf {keys : List GroupKey} {k : GroupKey} (known : k ∈ keys) :
    (k, keys.idxOf k) ∈ keys.zipIdx := by
  rw [List.mk_mem_zipIdx_iff_getElem?]
  exact List.getElem?_idxOf known

/-- What a batch does to a table that numbers keys: it goes on, and every row gets the number
of its key. -/
theorem Numbers.indices {s' : AggregateExec}
    (numbers : s.Numbers accumulators groupByFields seen)
    (numbers' : s'.Numbers accumulators groupByFields (seen ++ keysOf groupByFields batch))
    (planned : phase.Planned accumulators groupByFields batch)
    (few : (seen ++ keysOf groupByFields batch).eraseDups.length ≤ maxGroups) :
    ∃ groupIndices,
      assignGroups s.groupToIndex (keysOf groupByFields batch) = (s'.groupToIndex, groupIndices) ∧
      s.groupToIndex <+: s'.groupToIndex ∧ groupIndices.length = batch.numRows ∧
      ∀ entry ∈ (keysOf groupByFields batch).zip groupIndices,
        entry ∈ s'.groupToIndex ∧ entry.2 < s'.groupToIndex.length := by
  refine ⟨_, by rw [numbers.table, assignGroups_eq few, numbers'.table], ?_, ?_, ?_⟩
  · rw [numbers.table, numbers'.table]
    exact zipIdx_prefix (eraseDups_prefix_append _ _)
  · rw [List.length_map]
    exact keysOf_length planned.grouped rfl
  · intro entry member
    rw [List.zip_map_right, List.mem_map] at member
    obtain ⟨⟨k, k'⟩, paired, rfl⟩ := member
    obtain rfl : k = k' := by
      obtain ⟨i, here⟩ := List.mem_iff_getElem?.mp paired
      rw [List.getElem?_zip_eq_some] at here
      exact Option.some.inj (here.1.symm.trans here.2)
    have listed : k ∈ (seen ++ keysOf groupByFields batch).eraseDups :=
      List.mem_eraseDups.mpr (by simp [(List.of_mem_zip paired).1])
    rw [numbers'.table, List.length_zipIdx]
    exact ⟨mem_zipIdx_idxOf listed, List.idxOf_lt_length_of_mem listed⟩

/-- **Group indices.** An aggregation with GROUP BY, in either phase, takes any batches that
have the planned columns, without an error and without a panic, as long as there are at most
`2 ^ 32` distinct keys. Afterwards the table maps the distinct keys, in the order in which they
first appear, to `0, 1, …`, and every accumulator has exactly as many slots. Each of the
batches has only added to the table; the rows of the batch got the indices of their keys,
which were below the number of groups; and so did they in a hash table that is probed with
hashes computed beforehand, whenever it grows. The output has one row for each key, in the
order of the indices, and columns of that length. -/
theorem group_index_invariant (phase : AggregatePhase) (accumulators : List Accumulator)
    (groupByFields : List Field) (batches : List RecordBatch)
    (fresh : ∀ acc ∈ accumulators, acc.bare = acc) (grouping : groupByFields ≠ [])
    (planned : ∀ batch ∈ batches, phase.Planned accumulators groupByFields batch)
    (few : (batches.flatMap (keysOf groupByFields)).eraseDups.length ≤ maxGroups) :
    ∃ s, (phase.start accumulators groupByFields).takeBatches phase.absorb batches = .ok s ∧
      s.groupToIndex.map Prod.fst = (batches.flatMap (keysOf groupByFields)).eraseDups ∧
      (s.groupToIndex.map Prod.fst).Nodup ∧
      s.groupToIndex.map Prod.snd = List.range s.groupToIndex.length ∧
      (∀ acc ∈ s.accumulators, acc.slotCount = s.groupToIndex.length) ∧
      (∀ earlier batch later, batches = earlier ++ batch :: later → ∃ s₀ s₁ groupIndices,
        (phase.start accumulators groupByFields).takeBatches phase.absorb earlier = .ok s₀ ∧
        s₀.absorbBatch phase.absorb batch = (.ok (), s₁) ∧
        assignGroups s₀.groupToIndex (keysOf groupByFields batch) =
          (s₁.groupToIndex, groupIndices) ∧
        s₀.groupToIndex <+: s₁.groupToIndex ∧ s₁.groupToIndex <+: s.groupToIndex ∧
        (∀ acc ∈ s₁.accumulators, acc.slotCount = s₁.groupToIndex.length) ∧
        groupIndices.length = batch.numRows ∧
        (∀ entry ∈ (keysOf groupByFields batch).zip groupIndices,
          entry ∈ s₁.groupToIndex ∧ entry.2 < s₁.groupToIndex.length) ∧
        ∀ (h : RowHashing) (grows : List RawEntry → Bool) (table : List RawEntry),
          h.Models table s₀.groupToIndex →
          (h.probeAll grows table (keysOf groupByFields batch)).2 = groupIndices ∧
          h.Models (h.probeAll grows table (keysOf groupByFields batch)).1 s₁.groupToIndex) ∧
      ∃ out, s.finish.1 = .ok out ∧ (∀ a ∈ out.columns, a.length = s.groupToIndex.length) ∧
        out.rows.map (List.take groupByFields.length) = s.groupToIndex.map Prod.fst := by
  have begins := @numbers_start accumulators groupByFields fresh
  rw [← AggregatePhase.start_grouped grouping phase] at begins
  obtain ⟨s, taken, numbers⟩ := begins.takeBatches grouping planned (by simpa using few)
  rw [List.nil_append] at numbers
  have slots : ∀ {seen : List GroupKey} {s : AggregateExec},
      s.Numbers accumulators groupByFields seen →
      ∀ acc ∈ s.accumulators, acc.slotCount = s.groupToIndex.length := by
    intro seen s numbers acc member
    obtain ⟨_, _, _, _, count⟩ := exists_of_mem_right numbers.slots member
    rw [numbers.table, List.length_zipIdx, count]
  have listed : s.groupToIndex.map Prod.fst =
      (batches.flatMap (keysOf groupByFields)).eraseDups := by
    rw [numbers.table, List.zipIdx_map_fst]
  refine ⟨s, taken, listed, ?_, ?_, slots numbers, ?_, ?_⟩
  · rw [listed]
    exact nodup_eraseDups _
  · rw [numbers.table, List.zipIdx_map_snd, List.length_zipIdx, List.range_eq_range']
  · rintro earlier batch later rfl
    rw [List.flatMap_append, List.flatMap_cons, ← List.append_assoc] at few numbers
    have fewer := (eraseDups_prefix_append (earlier.flatMap (keysOf groupByFields) ++
      keysOf groupByFields batch) (later.flatMap (keysOf groupByFields))).length_le.trans few
    have fewest := (eraseDups_prefix_append (earlier.flatMap (keysOf groupByFields))
      (keysOf groupByFields batch)).length_le.trans fewer
    have planned₁ := planned batch (by simp)
    obtain ⟨s₀, taken₀, numbers₀⟩ := begins.takeBatches grouping
      (fun b member => planned b (List.mem_append_left _ member)) (by simpa using fewest)
    rw [List.nil_append] at numbers₀
    obtain ⟨s₁, taken₁, numbers₁⟩ := numbers₀.absorbBatch grouping planned₁ fewer
    obtain ⟨groupIndices, assigned, grown, length, entries⟩ :=
      numbers₀.indices numbers₁ planned₁ fewer
    refine ⟨s₀, s₁, groupIndices, taken₀, taken₁, assigned, grown, ?_, slots numbers₁, length,
      entries, fun h grows table models => ?_⟩
    · rw [numbers₁.table, numbers.table]
      exact zipIdx_prefix (eraseDups_prefix_append _ _)
    · have probed := models.probeAll grows (keysOf groupByFields batch)
      rw [assigned] at probed
      exact probed
  · have typed : ∀ key ∈ (batches.flatMap (keysOf groupByFields)).eraseDups,
        KeyTyped s.groupByFields key := by
      intro key member
      obtain ⟨batch, inside, here⟩ := List.mem_flatMap.mp (List.mem_eraseDups.mp member)
      rw [numbers.fields]
      exact keysOf_typed (planned batch inside).grouped rfl key here
    have schema : s.outputSchema =
        s.groupByFields ++ s.accumulators.map Accumulator.outputField := by
      rw [numbers.schema, numbers.fields]
      congr 1
      refine (map_eq_of_forall₂ (numbers.slots.imp fun acc acc' kept => ?_)).symm
      rw [← kept.1, Accumulator.outputField_bare]
    obtain ⟨out, arrays, made, _, _, rows, columns, count, keys⟩ := finish_eq_ok
      (fun _ => numbers.table) (.inl (numbers.fields ▸ grouping)) schema typed fun acc member => by
        rw [slots numbers acc member, numbers.table, List.length_zipIdx]
    rw [numbers.fields] at count
    refine ⟨out, made, fun a member => ?_, ?_⟩
    · rw [out.lengths a member, rows, numbers.table, List.length_zipIdx]
    · have lengths := out.lengths
      rw [rows, columns] at lengths
      rw [listed, RecordBatch.rows, rows, columns, ← count]
      exact (RecordBatch.take_rowsOf_append (fun a member => lengths a (by simp [member]))
        fun a member => lengths a (List.mem_append_right _ member)).trans keys

/-- Two batches of one Boolean column, which is grouped by and counted. -/
def flagBatch (flags : List Bool) : RecordBatch where
  fields := [⟨"a", .data .bool⟩]
  columns := [⟨.data .bool, flags⟩]
  numRows := flags.length
  typed := rfl
  lengths := by simp [ArrayRef.length]

/-- The second batch adds a key to that of the first. -/
theorem group_index_invariant_flags : ∃ s,
    (AggregatePhase.start .update [.count "a" []] [⟨"a", .data .bool⟩]).takeBatches
        Accumulator.update [flagBatch [true], flagBatch [false, true]] = .ok s ∧
      s.groupToIndex.map Prod.fst = [[⟨.data .bool, true⟩], [⟨.data .bool, false⟩]] ∧
      ∀ acc ∈ s.accumulators, acc.slotCount = s.groupToIndex.length := by
  obtain ⟨s, taken, keys, _, _, slots, _⟩ := group_index_invariant .update [.count "a" []]
    [⟨"a", .data .bool⟩] [flagBatch [true], flagBatch [false, true]] (by simp [Accumulator.bare])
    (by simp) (fun batch member => by
      obtain ⟨flags, rfl⟩ : ∃ flags, batch = flagBatch flags := by
        rcases List.mem_cons.mp member with rfl | later
        · exact ⟨_, rfl⟩
        · exact ⟨_, List.mem_singleton.mp later⟩
      exact ⟨by simp [Accumulator.FieldOf, flagBatch], by simp [AggregatePhase.TakesFrom,
        Accumulator.ReadsFrom]⟩) (by decide)
  exact ⟨s, taken, keys.trans rfl, slots⟩

end AggregateExec

end TinyOlap.Execution
