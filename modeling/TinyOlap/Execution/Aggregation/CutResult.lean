import TinyOlap.Execution.Aggregation.GroupedRows
import TinyOlap.Library.FirstKeys

/-!
# Partial results that are cut

A limit stands above the partial aggregation of each worker, and cuts its result after the first
groups. What is left is the partial result of fewer rows (`PartialOf.limited`): those of the
worker's rows whose key is among the first ones (`cutBatches`).
-/

set_option autoImplicit false

namespace TinyOlap.Execution

open Library Library.WorkPool Catalog Arrow Storage Physical

/-! ## The first groups of an output -/

namespace Aggregate

/-- The slots of the first groups. -/
theorem Holds.take {isPartial : Bool} {a : Aggregate} {acc : Accumulator}
    {groups : List (List Value)} (holds : a.Holds isPartial groups acc) (limit : Nat) :
    ∃ acc' : Accumulator, a.Holds isPartial (groups.take limit) acc' ∧
      acc'.materialize = acc.materialize.slice 0 limit := by
  cases a with
  | count c =>
      subst holds
      refine ⟨_, rfl, ?_⟩
      simp only [Accumulator.materialize, ArrayRef.slice, List.map_take]
      rfl
  | sum t c =>
      subst holds
      exact ⟨_, rfl, by simp [Accumulator.materialize, ArrayRef.slice, List.map_take]⟩
  | min t c =>
      subst holds
      refine ⟨_, rfl, ?_⟩
      simp [Accumulator.materialize, ArrayRef.slice, Extrema.ofOptions, List.map_take]
  | max t c =>
      subst holds
      refine ⟨_, rfl, ?_⟩
      simp [Accumulator.materialize, ArrayRef.slice, Extrema.ofOptions, List.map_take]
  | avg c =>
      obtain ⟨slots, rfl, means⟩ := holds
      refine ⟨_, ⟨slots.take limit, rfl, List.forall₂_take limit means⟩, ?_⟩
      cases isPartial <;> simp [Accumulator.materialize, ArrayRef.slice, List.map_take]
  | float function double c =>
      cases function with
      | sum =>
          obtain ⟨sums, rfl, amounts⟩ := holds
          exact ⟨_, ⟨sums.take limit, rfl, List.forall₂_take limit amounts⟩,
            by simp [Accumulator.materialize, ArrayRef.slice]⟩
      | min =>
          obtain ⟨opts, rfl, kept⟩ := holds
          exact ⟨_, ⟨opts.take limit, rfl, List.forall₂_take limit kept⟩, by
            simp [Accumulator.materialize, ArrayRef.slice, Extrema.ofOptions, List.map_take]⟩
      | max =>
          obtain ⟨opts, rfl, kept⟩ := holds
          exact ⟨_, ⟨opts.take limit, rfl, List.forall₂_take limit kept⟩, by
            simp [Accumulator.materialize, ArrayRef.slice, Extrema.ofOptions, List.map_take]⟩

end Aggregate

namespace AggregateExec

variable {aggregates : List Aggregate} {groupByFields fields : List Field} {keys : List GroupKey}
  {values : Aggregate → GroupKey → List Value} {out : RecordBatch} {isPartial : Bool}

/-- **An output that is cut** has the first keys, with their slots. -/
theorem Output.slice (output : Output isPartial aggregates groupByFields keys values out)
    (limit : Nat) :
    Output isPartial aggregates groupByFields (keys.take limit) values (out.slice 0 limit) := by
  obtain ⟨arrays, accumulators, columns, count, listed, slots⟩ := output.columns
  have rows : (out.slice 0 limit).numRows = (keys.take limit).length := by
    rw [List.length_take, ← output.rows]
    rfl
  obtain ⟨cut, cutSlots, cutColumns⟩ : ∃ cut : List Accumulator,
      List.Forall₂ (fun a acc => a.Holds isPartial ((keys.take limit).map (values a)) acc)
        aggregates cut ∧
      (accumulators.map Accumulator.materialize).map (ArrayRef.slice 0 limit) =
        cut.map Accumulator.materialize := by
    clear columns output
    induction slots with
    | nil => exact ⟨[], .nil, rfl⟩
    | cons holds _ ih =>
        obtain ⟨acc', holds', same⟩ := holds.take limit
        obtain ⟨cut, cutSlots, cutColumns⟩ := ih
        rw [← List.map_take] at holds'
        refine ⟨acc' :: cut, .cons holds' cutSlots, ?_⟩
        rw [List.map_cons, List.map_cons, List.map_cons, same, cutColumns]
  refine ⟨output.fields, rows, arrays.map (ArrayRef.slice 0 limit), cut, ?_, ?_, ?_, cutSlots⟩
  · rw [← cutColumns, ← List.map_append, ← columns]
    rfl
  · rw [List.length_map, count]
  · have cutRows := RecordBatch.rowsOf_slice keys.length 0 limit arrays
    rwa [listed, List.drop_zero, Nat.sub_zero, ← List.length_take] at cutRows

/-- **An output under a limit** has the first keys. -/
theorem Output.limited (output : Output isPartial aggregates groupByFields keys values out)
    {limit : Nat} (positive : 0 < limit) : ∃ cut, limitBatches limit [out] = [cut] ∧
      Output isPartial aggregates groupByFields (keys.take limit) values cut := by
  rw [limitBatches, if_neg (Nat.ne_of_gt positive)]
  split
  · rename_i short
    rw [output.rows] at short
    rw [List.take_of_length_le short]
    exact ⟨out, rfl, output⟩
  · exact ⟨_, rfl, output.slice limit⟩

theorem Output.congr {values' : Aggregate → GroupKey → List Value}
    (output : Output isPartial aggregates groupByFields keys values out)
    (same : ∀ a ∈ aggregates, ∀ key ∈ keys, values a key = values' a key) :
    Output isPartial aggregates groupByFields keys values' out := by
  obtain ⟨arrays, accumulators, columns, count, listed, slots⟩ := output.columns
  refine ⟨output.fields, output.rows, arrays, accumulators, columns, count, listed, ?_⟩
  refine ((List.forall₂_and_left _ _).mpr ⟨same, slots⟩).imp fun a acc both => ?_
  rw [← List.map_congr_left both.1]
  exact both.2

/-! ## Batches that have lost keys -/

/-- The rows with some keys. -/
def rowsWithKeys (names : List String) (keys : List GroupKey) (batch : RecordBatch) :
    RecordBatch :=
  match batch.filter (batch.namedRows.map fun row => decide (selectCells names row ∈ keys)) with
  | .ok kept => kept
  | _ => batch

theorem rowsWithKeys_eq (names : List String) (keys : List GroupKey) (batch : RecordBatch) :
    (rowsWithKeys names keys batch).fields = batch.fields ∧
      (rowsWithKeys names keys batch).namedRows =
        batch.namedRows.filter fun row => selectCells names row ∈ keys := by
  have short : (batch.namedRows.map fun row =>
      decide (selectCells names row ∈ keys)).length ≤ batch.numRows := by
    rw [List.length_map, RecordBatch.namedRows, List.length_map, RecordBatch.rows_length]
  obtain ⟨kept, made, fields, rows⟩ := RecordBatch.filter_eq_ok short
  rw [rowsWithKeys, made]
  refine ⟨fields, ?_⟩
  have named : kept.names = batch.names := congrArg (List.map Field.name) fields
  rw [RecordBatch.namedRows, rows, named, ← RecordBatch.keep_map,
    ← RecordBatch.keep_map_eq_filter]
  rfl

/-- What counts of the batches of a worker with a limit: the rows with the first keys. -/
def cutBatches (groupByFields : List Field) (limit : Nat) (batches : List RecordBatch) :
    List RecordBatch :=
  batches.map (rowsWithKeys (groupByFields.map Field.name)
    (firstKeys limit (batches.flatMap (keysOf groupByFields))))

section Cut

variable {batches : List RecordBatch} {limit : Nat}

theorem keysOf_flatMap
    (grouped : ∀ f ∈ groupByFields, Accumulator.FieldOf fields f.name f.dataType)
    (has : ∀ b ∈ batches, b.fields = fields) :
    batches.flatMap (keysOf groupByFields) = (batches.flatMap RecordBatch.namedRows).map
      (selectCells (groupByFields.map Field.name)) := by
  rw [List.map_flatMap]
  exact List.flatMap_congr fun batch member => keysOf_eq_map grouped (has batch member)

theorem fields_cutBatches (has : ∀ b ∈ batches, b.fields = fields) :
    ∀ b ∈ cutBatches groupByFields limit batches, b.fields = fields := by
  intro b member
  obtain ⟨batch, source, rfl⟩ := List.mem_map.mp member
  rw [(rowsWithKeys_eq _ _ batch).1, has batch source]

theorem namedRows_cutBatches
    (grouped : ∀ f ∈ groupByFields, Accumulator.FieldOf fields f.name f.dataType)
    (has : ∀ b ∈ batches, b.fields = fields) :
    (cutBatches groupByFields limit batches).flatMap RecordBatch.namedRows =
      (batches.flatMap RecordBatch.namedRows).filter fun row =>
        selectCells (groupByFields.map Field.name) row ∈ firstKeys limit
          ((batches.flatMap RecordBatch.namedRows).map
            (selectCells (groupByFields.map Field.name))) := by
  rw [cutBatches, keysOf_flatMap grouped has, List.flatMap_map, List.filter_flatMap]
  exact List.flatMap_congr fun batch _ => (rowsWithKeys_eq _ _ batch).2

/-- The keys that are left are the first. -/
theorem keysOf_cutBatches
    (grouped : ∀ f ∈ groupByFields, Accumulator.FieldOf fields f.name f.dataType)
    (has : ∀ b ∈ batches, b.fields = fields) :
    (cutBatches groupByFields limit batches).flatMap (keysOf groupByFields) =
      (batches.flatMap (keysOf groupByFields)).filter fun key =>
        decide (key ∈ firstKeys limit (batches.flatMap (keysOf groupByFields))) := by
  rw [keysOf_flatMap grouped (fields_cutBatches has), namedRows_cutBatches grouped has,
    keysOf_flatMap grouped has, List.filter_map]
  rfl

/-- **A partial result under a limit** is that of the rows with the first keys. -/
theorem PartialOf.limited {sent : RecordBatch}
    (sends : PartialOf aggregates groupByFields batches sent)
    (grouped : ∀ f ∈ groupByFields, Accumulator.FieldOf fields f.name f.dataType)
    (has : ∀ b ∈ batches, b.fields = fields) (positive : 0 < limit) :
    ∃ cut, limitBatches limit [sent] = [cut] ∧
      PartialOf aggregates groupByFields (cutBatches groupByFields limit batches) cut := by
  let first := firstKeys limit (batches.flatMap (keysOf groupByFields))
  have kept : distinctKeys groupByFields (cutBatches groupByFields limit batches) = first := by
    rw [distinctKeys, keysOf_cutBatches grouped has, eraseDups_filter]
    exact filter_firstKeys limit _
  obtain ⟨cut, limits, output⟩ := Output.limited sends positive
  have output : Output true aggregates groupByFields first _ cut := output
  rw [← kept] at output
  refine ⟨cut, limits, output.congr fun a _ key member => ?_⟩
  rw [kept] at member
  rw [Aggregate.groupValues_eq a grouped has, Aggregate.groupValues_eq a grouped
    (fields_cutBatches has), namedRows_cutBatches grouped has, ← keysOf_flatMap grouped has,
    rowsOfGroup, rowsOfGroup, List.filter_filter]
  congr 1
  refine List.filter_congr fun row _ => ?_
  by_cases here : selectCells (groupByFields.map Field.name) row = key
  · have listed : key ∈ firstKeys limit (batches.flatMap (keysOf groupByFields)) := member
    simp [here, listed]
  · simp [here]

end Cut

end AggregateExec

end TinyOlap.Execution
