import TinyOlap.Execution.Aggregation.AggregateResult
import TinyOlap.Execution.Aggregation.GroupIndex
import TinyOlap.Execution.OutputFields

/-!
# Aggregations on whatever comes

An aggregation takes the batches of what is below it and hands on the errors. As long as the
batches have its columns it does not fail itself, with GROUP BY or without, in both phases and
whatever comes in between: the accumulators have a slot for each group, or all of them have one
slot or none, so that the columns of the output have the same length. It has no more rows than
came in, and without GROUP BY at most one.
-/

set_option autoImplicit false

namespace TinyOlap.Execution

open Library Library.WorkPool Catalog Arrow

/-- How many rows results have together. -/
def rowCount (results : List BatchResult) : Nat := (results.map resultRows).sum

namespace AggregateExec

variable {phase : AggregatePhase} {accumulators : List Accumulator}
  {groupByFields fields : List Field} {seen : List GroupKey} {s : AggregateExec}
  {batch : RecordBatch}

/-! ## Without GROUP BY -/

/-- Every accumulator has the same number of slots, at most one. -/
structure Single (accumulators : List Accumulator) (s : AggregateExec) : Prop where
  whole : s.groupByFields = []
  schema : s.outputSchema = accumulators.map Accumulator.outputField
  slots : ∃ n ≤ 1, List.Forall₂ (fun acc acc' : Accumulator => acc'.bare = acc ∧ acc'.Even ∧
    acc'.slotCount = n) accumulators s.accumulators

theorem even_of_bare {acc : Accumulator} (fresh : acc.bare = acc) :
    acc.Even ∧ acc.slotCount = 0 := by
  rw [← fresh]
  cases acc with
  | min t c slots => exact ⟨⟨Nat.zero_le _, rfl⟩, rfl⟩
  | max t c slots => exact ⟨⟨Nat.zero_le _, rfl⟩, rfl⟩
  | count c counts => exact ⟨trivial, rfl⟩
  | sum t c sums => exact ⟨trivial, rfl⟩
  | avg c slots isPartial => exact ⟨trivial, rfl⟩

/-- The final aggregation starts with a slot, the partial one without. -/
theorem single_start (fresh : ∀ acc ∈ accumulators, acc.bare = acc) (phase : AggregatePhase) :
    (phase.start accumulators []).Single accumulators := by
  cases phase with
  | update =>
      refine ⟨rfl, rfl, 0, Nat.zero_le 1, List.forall₂_same.mpr fun acc member => ?_⟩
      exact ⟨fresh acc member, even_of_bare (fresh acc member)⟩
  | merge =>
      refine ⟨rfl, ?_, 1, Nat.le_refl 1, ?_⟩
      · show (accumulators.map (Accumulator.ensureCapacity 1)).map Accumulator.outputField = _
        rw [List.map_map]
        exact List.map_congr_left fun acc _ => (acc.sameKind_ensureCapacity 1).1
      · refine List.forall₂_map_right_iff.mpr (List.forall₂_same.mpr fun acc member => ?_)
        obtain ⟨even, none⟩ := even_of_bare (fresh acc member)
        refine ⟨(acc.bare_ensureCapacity 1).trans (fresh acc member),
          Accumulator.even_ensureCapacity even 1, ?_⟩
        rw [Accumulator.slotCount_ensureCapacity even, none]
        rfl

/-- A batch makes it one slot. -/
theorem Single.absorbBatch (single : s.Single accumulators)
    (planned : phase.Planned accumulators [] batch) :
    ∃ s', s.absorbBatch phase.absorb batch = (.ok (), s') ∧ s'.Single accumulators := by
  obtain ⟨n, few, slots⟩ := single.slots
  have known : ∀ gi ∈ List.replicate batch.numRows 0, gi < 1 := by
    intro gi member
    rw [(List.mem_replicate.mp member).2]
    exact Nat.zero_lt_one
  obtain ⟨accumulators', taken, both⟩ := absorbBatch_ungrouped phase.absorb single.whole
    (R := fun acc acc' => acc.Absorbed 1 acc') (by
    intro acc' member
    obtain ⟨acc, source, bare, even, _⟩ := exists_of_mem_right slots member
    exact AggregatePhase.absorbed
      (AggregatePhase.takesFrom_bare.mp (bare ▸ planned.taken acc source)) even known)
  refine ⟨_, taken, single.whole, single.schema, 1, Nat.le_refl 1, forall₂_trans slots both ?_⟩
  rintro acc mid acc' ⟨bare, _, count⟩ absorbed
  refine ⟨absorbed.bare.trans bare, absorbed.even, ?_⟩
  rw [absorbed.slots, count]
  exact Nat.max_eq_right few

/-! ## Both kinds -/

/-- **The aggregation is in order** after rows with these keys. -/
structure InOrder (accumulators : List Accumulator) (groupByFields : List Field)
    (seen : List GroupKey) (s : AggregateExec) : Prop where
  grouped : groupByFields ≠ [] → s.Numbers accumulators groupByFields seen
  whole : groupByFields = [] → s.Single accumulators
  typed : ∀ key ∈ seen, KeyTyped groupByFields key

theorem inOrder_start (fresh : ∀ acc ∈ accumulators, acc.bare = acc) (phase : AggregatePhase)
    (groupByFields : List Field) :
    (phase.start accumulators groupByFields).InOrder accumulators groupByFields [] where
  grouped grouping := by
    rw [AggregatePhase.start_grouped grouping]
    exact numbers_start fresh
  whole none := none ▸ single_start fresh phase
  typed _ member := by cases member

/-- **A batch with the columns keeps it in order.** -/
theorem InOrder.absorbBatch (ordered : s.InOrder accumulators groupByFields seen)
    (planned : phase.Planned accumulators groupByFields batch)
    (few : seen.length + batch.numRows ≤ maxGroups) :
    ∃ s', s.absorbBatch phase.absorb batch = (.ok (), s') ∧
      s'.InOrder accumulators groupByFields (seen ++ keysOf groupByFields batch) := by
  have typed : ∀ key ∈ seen ++ keysOf groupByFields batch, KeyTyped groupByFields key := by
    intro key member
    rcases List.mem_append.mp member with old | new
    · exact ordered.typed key old
    · exact keysOf_typed planned.grouped rfl key new
  by_cases none : groupByFields = []
  · subst none
    obtain ⟨s', taken, single⟩ := (ordered.whole rfl).absorbBatch planned
    exact ⟨s', taken, fun grouping => (grouping rfl).elim, fun _ => single, typed⟩
  · have less : (seen ++ keysOf groupByFields batch).eraseDups.length ≤ maxGroups := by
      refine (length_eraseDups_le _).trans ?_
      rw [List.length_append, keysOf_length planned.grouped rfl]
      exact few
    obtain ⟨s', taken, numbers⟩ := (ordered.grouped none).absorbBatch none planned less
    exact ⟨s', taken, fun _ => numbers, fun same => (none same).elim, typed⟩

/-- **The output of an aggregation in order** has its fields, and no more rows than came in. -/
theorem InOrder.finish (ordered : s.InOrder accumulators groupByFields seen)
    (some : groupByFields ≠ [] ∨ accumulators ≠ []) :
    ∃ out, s.finish.1 = .ok out ∧ s.finish.2.emitted = true ∧
      out.fields = groupByFields ++ accumulators.map Accumulator.outputField ∧
      out.numRows ≤ seen.length + if groupByFields.isEmpty then 1 else 0 := by
  have outputs : ∀ {n : Nat}, List.Forall₂ (fun acc acc' : Accumulator => acc'.bare = acc ∧
      acc'.Even ∧ acc'.slotCount = n) accumulators s.accumulators →
      s.accumulators.map Accumulator.outputField = accumulators.map Accumulator.outputField := by
    intro n slots
    refine map_eq_of_forall₂ (slots.imp fun acc acc' kept => ?_)
    rw [← kept.1, Accumulator.outputField_bare]
  have counts : ∀ {n : Nat}, List.Forall₂ (fun acc acc' : Accumulator => acc'.bare = acc ∧
      acc'.Even ∧ acc'.slotCount = n) accumulators s.accumulators →
      ∀ acc ∈ s.accumulators, acc.slotCount = n := by
    intro n slots acc member
    obtain ⟨_, _, _, _, count⟩ := exists_of_mem_right slots member
    exact count
  by_cases none : groupByFields = []
  · subst none
    obtain ⟨whole, schema, n, few, slots⟩ := ordered.whole rfl
    have filled : s.accumulators ≠ [] := by
      intro empty
      rw [empty] at slots
      cases slots
      simp at some
    obtain ⟨out, arrays, made, emitted, outFields, rows, _⟩ :=
      @finish_eq_ok s (List.replicate n []) (fun grouping => (grouping whole).elim) (.inr filled)
        (by rw [schema, whole, List.nil_append, outputs slots])
        (fun key member => by
          rw [(List.mem_replicate.mp member).2, whole]
          rfl)
        fun acc member => by rw [counts slots acc member, List.length_replicate]
    refine ⟨out, made, emitted, outFields.trans schema, ?_⟩
    rw [rows, List.length_replicate]
    exact few.trans (Nat.le_add_left _ _)
  · have numbers := ordered.grouped none
    obtain ⟨out, arrays, made, emitted, outFields, rows, _⟩ :=
      @finish_eq_ok s seen.eraseDups (fun _ => numbers.table) (.inl (numbers.fields ▸ none))
        (by rw [numbers.schema, numbers.fields, outputs numbers.slots])
        (fun key member => by
          rw [numbers.fields]
          exact ordered.typed key (List.mem_eraseDups.mp member))
        (counts numbers.slots)
    refine ⟨out, made, emitted, outFields.trans numbers.schema, ?_⟩
    rw [rows]
    exact (length_eraseDups_le _).trans (Nat.le_add_right _ _)

/-! ## What a worker makes -/

/-- **A partial aggregation in order makes something of any results** whose batches have its
columns: it hands on the errors, and returns one batch in the end. -/
theorem InOrder.result (ordered : s.InOrder accumulators groupByFields seen)
    (going : s.emitted = false) (some : groupByFields ≠ [] ∨ accumulators ≠ [])
    (planned : ∀ batch : RecordBatch, batch.fields = fields →
      AggregatePhase.update.Planned accumulators groupByFields batch)
    {results : List BatchResult} (has : ∀ result ∈ results, HasFields fields result)
    (few : seen.length + rowCount results ≤ maxGroups) :
    ∃ all, hashAggregateExec.result s results = .some all ∧
      (∀ result ∈ all,
        HasFields (groupByFields ++ accumulators.map Accumulator.outputField) result) ∧
      rowCount all ≤ seen.length + (if groupByFields.isEmpty then 1 else 0) + rowCount results := by
  let room := if groupByFields.isEmpty then 1 else 0
  refine Operator.exists_result (I := fun inside rest s => s.emitted = false ∧
    (∀ result ∈ rest, HasFields fields result) ∧ ∃ seen : List GroupKey,
      s.InOrder accumulators groupByFields seen ∧ inside = seen.length + room ∧
        seen.length + rowCount rest ≤ maxGroups) ?_ ?_ ⟨going, has, seen, ordered, rfl, few⟩
  · rintro inside result rest s ⟨going, has, seen, ordered, rfl, few⟩ _
    have later : ∀ result ∈ rest, HasFields fields result := fun r member =>
      has r (by simp [member])
    cases result with
    | error e =>
        refine .inr ⟨.error e, s, seen.length + room, rfl, hasFields_error _ e,
          ⟨going, later, seen, ordered, rfl, ?_⟩, ?_⟩
        · simpa [rowCount, resultRows] using few
        · simp [resultRows]
    | ok batch =>
        rw [rowCount, List.map_cons, List.sum_cons] at few
        have planned' := planned batch (has (.ok batch) (by simp) batch rfl)
        obtain ⟨s', taken, ordered'⟩ := ordered.absorbBatch planned'
          ((Nat.add_le_add_left (Nat.le_add_right _ _) _).trans few)
        have length : (seen ++ keysOf groupByFields batch).length =
            seen.length + batch.numRows := by
          rw [List.length_append, keysOf_length planned'.grouped rfl]
        have kept := emitted_absorbBatch Accumulator.update s batch
        refine .inl ⟨s', ?_, ?_, later, _, ordered', ?_, ?_⟩
        · have taken : s.absorbBatch Accumulator.update batch = (.ok (), s') := taken
          simp only [hashAggregateExec, taken]
        · have taken : s.absorbBatch Accumulator.update batch = (.ok (), s') := taken
          rw [taken] at kept
          exact kept.trans going
        · rw [length, resultRows]
          omega
        · rw [length, Nat.add_assoc]
          exact few
  · rintro inside s ⟨_, _, seen, ordered, rfl, _⟩ _
    obtain ⟨out, made, emitted, outFields, rows⟩ := ordered.finish some
    refine .inr ⟨.ok out, s.finish.2, ?_, ?_, emitted, rows⟩
    · simp only [hashAggregateExec, made, Turn.returning]
    · intro batch same
      cases same
      exact outFields

/-! ## What the consumer makes -/

/-- **A final aggregation in order goes through any results** whose batches have its columns, up
to the first error. -/
theorem InOrder.consume (ordered : s.InOrder accumulators groupByFields seen)
    {results : List BatchResult}
    (planned : ∀ batch, .ok batch ∈ results →
      AggregatePhase.merge.Planned accumulators groupByFields batch)
    (few : seen.length + rowCount results ≤ maxGroups) :
    (∃ e, .error e ∈ results ∧ s.consume results = .err e) ∨
      (∀ e, .error e ∉ results) ∧ ∃ s' seen', s.consume results = .ok s' ∧
        s'.InOrder accumulators groupByFields seen' := by
  induction results generalizing s seen with
  | nil => exact .inr ⟨by simp, s, seen, rfl, ordered⟩
  | cons result rest ih =>
      cases result with
      | error e => exact .inl ⟨e, by simp, rfl⟩
      | ok batch =>
          rw [rowCount, List.map_cons, List.sum_cons] at few
          have planned' := planned batch (by simp)
          obtain ⟨s', taken, ordered'⟩ := ordered.absorbBatch planned'
            ((Nat.add_le_add_left (Nat.le_add_right _ _) _).trans few)
          have taken : s.absorbBatch Accumulator.merge batch = (.ok (), s') := taken
          have length : (seen ++ keysOf groupByFields batch).length =
              seen.length + batch.numRows := by
            rw [List.length_append, keysOf_length planned'.grouped rfl]
          rw [AggregateExec.consume, taken]
          rcases ih ordered' (fun b member => planned b (by simp [member])) (by
            rw [length, Nat.add_assoc]
            exact few) with ⟨e, erred, failed⟩ | ⟨clean, consumed⟩
          · exact .inl ⟨e, by simp [erred], failed⟩
          · exact .inr ⟨by simpa using clean, consumed⟩

end AggregateExec

end TinyOlap.Execution
