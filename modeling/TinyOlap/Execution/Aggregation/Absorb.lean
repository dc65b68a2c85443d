import TinyOlap.Execution.Aggregation.GroupTable
import TinyOlap.Execution.Aggregation.Merge

/-!
# Taking a batch

A batch that has the columns the planner has seen to is taken by every accumulator, in both
phases: no slot is out of range, and afterwards every group has a slot
(`Accumulator.update_absorbed`, `Accumulator.merge_absorbed`). With GROUP BY an accumulator
gets the positions of the keys of the rows (`AggregateExec.absorbBatch_grouped`).
-/

set_option autoImplicit false

namespace TinyOlap.Execution

open Library Catalog Arrow

/-! ## Slots -/

section Slots

variable {α β : Type}

theorem modifyAt_eq_some {slots : List α} {idx : Nat} (inside : idx < slots.length) (f : α → α) :
    modifyAt slots idx f = some (slots.set idx (f slots[idx])) := by
  rw [modifyAt, List.getElem?_eq_getElem inside]
  rfl

theorem modifyAt_length {slots slots' : List α} {idx : Nat} {f : α → α}
    (modified : modifyAt slots idx f = some slots') : slots'.length = slots.length := by
  obtain ⟨slot, _, rfl⟩ := Option.map_eq_some_iff.mp modified
  exact List.length_set

theorem scatter_length {f : α → β → α} {slots slots' : List α} {groupIndices : List Nat}
    {values : List β} (scattered : scatter f slots groupIndices values = some slots') :
    slots'.length = slots.length := by
  unfold scatter at scattered
  generalize groupIndices.zip values = entries at scattered
  induction entries generalizing slots with
  | nil =>
      cases scattered
      rfl
  | cons entry rest ih =>
      obtain ⟨next, modified, later⟩ := Option.bind_eq_some_iff.mp scattered
      exact (ih later).trans (modifyAt_length modified)

end Slots

namespace Extrema

variable {t : NumericType} {kernel better : t.Native → t.Native → Bool} {s s' : Extrema t}

theorem take_length {gi : Nat} {value : t.Native} (taken : s.take better gi value = some s') :
    s'.running.length = s.running.length := by
  unfold take at taken
  split at taken
  · cases taken
    split
    · exact List.length_set
    · rfl
  · cases taken
    exact List.length_set
  · cases taken

theorem absorb_length {values : List t.Native} {groupIndices : List Nat} {numGroups : Nat}
    (absorbed : s.absorb kernel better values groupIndices numGroups = some s') :
    s'.running.length = s.running.length := by
  unfold absorb at absorbed
  split at absorbed
  · split at absorbed
    · exact take_length absorbed
    · cases absorbed
      rfl
  · generalize groupIndices.zip values = entries at absorbed
    induction entries generalizing s with
    | nil =>
        cases absorbed
        rfl
    | cons entry rest ih =>
        obtain ⟨next, taken, later⟩ := Option.bind_eq_some_iff.mp absorbed
        exact (ih later).trans (take_length taken)

end Extrema

/-! ## Accumulators -/

namespace Accumulator

/-- How many groups have a slot. -/
def slotCount : Accumulator → Nat
  | count _ counts => counts.length
  | sum _ _ sums => sums.length
  | min _ _ slots | max _ _ slots => slots.running.length
  | avg _ slots _ => slots.length

/-- The accumulator as it is built, without a slot. -/
def bare : Accumulator → Accumulator
  | count c _ => count c []
  | sum t c _ => sum t c []
  | min t c _ => min t c ⟨[], []⟩
  | max t c _ => max t c ⟨[], []⟩
  | avg c _ isPartial => avg c [] isPartial

theorem outputField_bare (acc : Accumulator) : acc.bare.outputField = acc.outputField := by
  cases acc <;> rfl

theorem slotType_bare (acc : Accumulator) : acc.bare.slotType = acc.slotType := by
  cases acc <;> rfl

theorem length_materialize (acc : Accumulator) : acc.materialize.length = acc.slotCount := by
  cases acc with
  | avg c slots isPartial =>
      cases isPartial with
      | true => rfl
      | false => exact List.length_map _
  | count c counts => rfl
  | sum t c sums => rfl
  | min t c slots => rfl
  | max t c slots => rfl

theorem type_materialize (acc : Accumulator) :
    acc.materialize.type = acc.outputField.dataType := by
  cases acc with
  | avg c slots isPartial => cases isPartial <;> rfl
  | count c counts => rfl
  | sum t c sums => rfl
  | min t c slots => rfl
  | max t c slots => rfl

/-- The first field with the name has the type. -/
def FieldOf (fields : List Field) (name : String) (t : ArrowType) : Prop :=
  ∃ f, fields.find? (fun f => f.name = name) = some f ∧ f.dataType = t

theorem FieldOf.column {fields : List Field} {name : String} {t : ArrowType}
    (field : FieldOf fields name t) {batch : RecordBatch} (has : batch.fields = fields) :
    ∃ values : List t.Native, batch.columnByName name = some ⟨t, values⟩ ∧
      values.length = batch.numRows := by
  obtain ⟨f, found, type⟩ := field
  rcases batch.columnByName_cases name with ⟨absent, _⟩ | ⟨g, ⟨t', values⟩, there, column, typed⟩
  · rw [has, found] at absent
    cases absent
  · rw [has, found] at there
    cases there
    obtain rfl : t' = t := typed.trans type
    obtain ⟨h, member, _⟩ := RecordBatch.mem_of_columnByName column
    exact ⟨values, column, batch.lengths _ (List.of_mem_zip member).2⟩

/-- A batch with these fields has the column whose values are taken. -/
def ReadsFrom (fields : List Field) : Accumulator → Prop
  | count .. => True
  | sum t c _ | min t c _ | max t c _ => FieldOf fields c (.data t.dataType)
  | avg c .. => ∃ t, FieldOf fields c (.data t)

/-- A batch with these fields has the column of slots that are merged. -/
def MergesFrom (fields : List Field) (acc : Accumulator) : Prop :=
  FieldOf fields acc.outputField.name acc.slotType

theorem readsFrom_bare {fields : List Field} {acc : Accumulator} :
    acc.bare.ReadsFrom fields ↔ acc.ReadsFrom fields := by
  cases acc <;> exact Iff.rfl

theorem mergesFrom_bare {fields : List Field} {acc : Accumulator} :
    acc.bare.MergesFrom fields ↔ acc.MergesFrom fields := by
  rw [MergesFrom, outputField_bare, slotType_bare, MergesFrom]

/-- An accumulator has taken a batch: apart from its slots it is the same, and every group
has a slot. -/
structure Absorbed (numGroups : Nat) (acc acc' : Accumulator) : Prop where
  bare : acc'.bare = acc.bare
  even : acc'.Even
  slots : acc'.slotCount = Nat.max acc.slotCount numGroups

theorem Extrema.length_ensureCapacity {t : NumericType} {s : Extrema t} (sized : s.Sized 0)
    (numGroups : Nat) :
    (s.ensureCapacity numGroups).running.length = Nat.max s.running.length numGroups := by
  have same := sized.2
  unfold Extrema.ensureCapacity
  split
  · exact grow_length _ _ _
  · exact (Nat.max_eq_left (by omega)).symm

theorem bare_ensureCapacity (acc : Accumulator) (numGroups : Nat) :
    (acc.ensureCapacity numGroups).bare = acc.bare := by
  cases acc <;> rfl

theorem slotCount_ensureCapacity {acc : Accumulator} (even : acc.Even) (numGroups : Nat) :
    (acc.ensureCapacity numGroups).slotCount = Nat.max acc.slotCount numGroups := by
  cases acc with
  | min t c slots => exact Extrema.length_ensureCapacity even numGroups
  | max t c slots => exact Extrema.length_ensureCapacity even numGroups
  | count c counts => exact grow_length _ _ _
  | sum t c sums => exact grow_length _ _ _
  | avg c slots isPartial => exact grow_length _ _ _

theorem castToF64_data {t : DataType} (values : List t.Native) :
    ∃ converted, castToF64 ⟨.data t, values⟩ = some converted ∧
      converted.length = values.length := by
  cases t with
  | fixed t => cases t <;> exact ⟨_, rfl, by simp⟩
  | str => exact ⟨_, rfl, by simp⟩

section Absorb

variable {acc : Accumulator} {batch : RecordBatch} {groupIndices : List Nat} {numGroups : Nat}

theorem scatter_grown {α β : Type} (f : α → β → α) (slots : List α) (default : α)
    (values : List β) (known : ∀ gi ∈ groupIndices, gi < numGroups) :
    ∃ slots', scatter f (grow slots numGroups default) groupIndices values = some slots' ∧
      slots'.length = Nat.max slots.length numGroups := by
  obtain ⟨slots', scattered⟩ := @scatter_eq_some _ _ f (grow slots numGroups default)
    groupIndices values fun gi member => by
      rw [grow_length]
      exact lt_max_of_lt_right (known gi member)
  exact ⟨slots', scattered, (scatter_length scattered).trans (grow_length _ _ _)⟩

/-- An only slot is changed at once, others value by value. -/
theorem modify_or_scatter {α β : Type} (f : α → β → α) (g : α → α) (slots : List α) (default : α)
    (values : List β) (known : ∀ gi ∈ groupIndices, gi < numGroups) :
    ∃ slots', (if numGroups = 1 then modifyAt (grow slots numGroups default) 0 g
        else scatter f (grow slots numGroups default) groupIndices values) = some slots' ∧
      slots'.length = Nat.max slots.length numGroups := by
  split
  · rename_i single
    have inside : 0 < (grow slots numGroups default).length := by
      rw [grow_length, single]
      exact lt_max_of_lt_right Nat.zero_lt_one
    exact ⟨_, modifyAt_eq_some inside g, List.length_set.trans (grow_length _ _ _)⟩
  · exact scatter_grown f slots default values known

theorem absorb_grown {t : NumericType} (kernel better : t.Native → t.Native → Bool)
    {slots : Extrema t} (sized : slots.Sized 0) (values : List t.Native)
    (known : ∀ gi ∈ groupIndices, gi < numGroups) :
    ∃ slots', (slots.ensureCapacity numGroups).absorb kernel better values groupIndices
        numGroups = some slots' ∧ slots'.Sized 0 ∧
      slots'.running.length = Nat.max slots.running.length numGroups := by
  obtain ⟨slots', absorbed, sized'⟩ := @Extrema.absorb_eq_some t kernel better _ values _ _
    (Extrema.sized_ensureCapacity sized numGroups) known
  exact ⟨slots', absorbed, ⟨Nat.zero_le _, sized'.2⟩,
    (Extrema.absorb_length absorbed).trans (Extrema.length_ensureCapacity sized numGroups)⟩

/-- **A batch with the column is taken.** -/
theorem update_absorbed {fields : List Field} (reads : acc.ReadsFrom fields)
    (has : batch.fields = fields) (even : acc.Even)
    (known : ∀ gi ∈ groupIndices, gi < numGroups) :
    ∃ acc', update batch groupIndices numGroups acc = .ok acc' ∧ acc.Absorbed numGroups acc' := by
  cases acc with
  | count c counts =>
      obtain ⟨slots, changed, length⟩ := modify_or_scatter
        (fun n (_ : Nat) => addU64 n (MachineInt.wrap false 63 1))
        (fun n => addU64 n (MachineInt.wrap false 63 groupIndices.length)) counts zeroU64
        groupIndices known
      exact ⟨.count c slots, by simp only [update, ensureCapacity, changed]; rfl, rfl, trivial,
        length⟩
  | sum t c sums =>
      obtain ⟨arr, column, _⟩ := FieldOf.column reads has
      obtain ⟨slots, changed, length⟩ := modify_or_scatter
        (fun s v => t.widened.add s (t.widen v)) (fun s => t.widened.add s
          (arr.foldl (fun acc v => t.widened.add acc (t.widen v)) t.widened.zero)) sums
        t.widened.zero arr known
      refine ⟨.sum t c slots, ?_, rfl, trivial, length⟩
      simp only [update, ensureCapacity, column, Outcome.ofOption, Outcome.ok_bind, values,
        ArrayRef.downcast_mk, Outcome.orPanic_some, changed]
  | min t c slots =>
      obtain ⟨arr, column, _⟩ := FieldOf.column reads has
      obtain ⟨slots', absorbed, sized, length⟩ := absorb_grown
        (fun a b => decide (t.key a < t.key b)) t.lt even arr known
      refine ⟨.min t c slots', ?_, rfl, sized, length⟩
      simp only [update, ensureCapacity, column, Outcome.ofOption, Outcome.ok_bind, values,
        ArrayRef.downcast_mk, Outcome.orPanic_some, absorbed]
  | max t c slots =>
      obtain ⟨arr, column, _⟩ := FieldOf.column reads has
      obtain ⟨slots', absorbed, sized, length⟩ := absorb_grown
        (fun a b => decide (t.key b < t.key a)) (fun a b => t.lt b a) even arr known
      refine ⟨.max t c slots', ?_, rfl, sized, length⟩
      simp only [update, ensureCapacity, column, Outcome.ofOption, Outcome.ok_bind, values,
        ArrayRef.downcast_mk, Outcome.orPanic_some, absorbed]
  | avg c slots isPartial =>
      obtain ⟨t, field⟩ := reads
      obtain ⟨arr, column, _⟩ := field.column has
      obtain ⟨converted, cast, _⟩ := castToF64_data arr
      obtain ⟨slots', scattered, length⟩ := @scatter_grown groupIndices numGroups _ _
        (fun (slot : F64 × U64) v =>
          (Ieee.add slot.1 v, addU64 slot.2 (MachineInt.wrap false 63 1)))
        slots zeroAvg converted known
      refine ⟨.avg c slots' isPartial, ?_, rfl, trivial, length⟩
      simp only [update, ensureCapacity, column, Outcome.ofOption, Outcome.ok_bind, cast,
        Outcome.orPanic_some, scattered]

/-- **A batch with the slots is merged.** -/
theorem merge_absorbed {fields : List Field} (merges : acc.MergesFrom fields)
    (has : batch.fields = fields) (even : acc.Even)
    (known : ∀ gi ∈ groupIndices, gi < numGroups) :
    ∃ acc', merge batch groupIndices numGroups acc = .ok acc' ∧ acc.Absorbed numGroups acc' := by
  obtain ⟨found, column, _⟩ := merges.column has
  cases acc with
  | count c counts =>
      obtain ⟨slots, scattered, length⟩ :=
        @scatter_grown groupIndices numGroups _ _ addU64 counts zeroU64 found known
      refine ⟨.count c slots, ?_, rfl, trivial, length⟩
      simp only [merge, column, ensureCapacity, Outcome.ofOption, Outcome.ok_bind, values,
        slotType, ArrayRef.downcast_mk, Outcome.orPanic_some, scattered]
  | sum t c sums =>
      obtain ⟨slots, scattered, length⟩ :=
        @scatter_grown groupIndices numGroups _ _ t.widened.add sums t.widened.zero found known
      refine ⟨.sum t c slots, ?_, rfl, trivial, length⟩
      simp only [merge, column, ensureCapacity, Outcome.ofOption, Outcome.ok_bind, values,
        slotType, ArrayRef.downcast_mk, Outcome.orPanic_some, scattered]
  | min t c slots =>
      obtain ⟨slots', absorbed, sized, length⟩ := absorb_grown
        (fun a b => decide (t.key a < t.key b)) t.lt even found known
      refine ⟨.min t c slots', ?_, rfl, sized, length⟩
      simp only [merge, column, ensureCapacity, Outcome.ofOption, Outcome.ok_bind, values,
        slotType, ArrayRef.downcast_mk, Outcome.orPanic_some, absorbed]
  | max t c slots =>
      obtain ⟨slots', absorbed, sized, length⟩ := absorb_grown
        (fun a b => decide (t.key b < t.key a)) (fun a b => t.lt b a) even found known
      refine ⟨.max t c slots', ?_, rfl, sized, length⟩
      simp only [merge, column, ensureCapacity, Outcome.ofOption, Outcome.ok_bind, values,
        slotType, ArrayRef.downcast_mk, Outcome.orPanic_some, absorbed]
  | avg c slots isPartial =>
      obtain ⟨slots', scattered, length⟩ := @scatter_grown groupIndices numGroups _ _
        (fun (slot other : F64 × U64) => (Ieee.add slot.1 other.1, addU64 slot.2 other.2))
        slots zeroAvg found known
      refine ⟨.avg c slots' isPartial, ?_, rfl, trivial, length⟩
      simp only [merge, column, ensureCapacity, Outcome.ok_bind, values,
        slotType, ArrayRef.downcast_mk, Outcome.orPanic_some, scattered]

end Absorb

end Accumulator

/-! ## Batches -/

/-- The keys of the rows of a batch. -/
def keysOf (groupByFields : List Field) (batch : RecordBatch) : List GroupKey :=
  RecordBatch.rowsOf batch.numRows (groupByFields.filterMap fun f => batch.columnByName f.name)

theorem exists_groupColumns {groupByFields fields : List Field} {batch : RecordBatch}
    (grouped : ∀ f ∈ groupByFields, Accumulator.FieldOf fields f.name f.dataType)
    (has : batch.fields = fields) :
    List.Forall₂ (fun f a => batch.columnByName f.name = some a ∧ a.type = f.dataType ∧
        a.length = batch.numRows) groupByFields
      (groupByFields.filterMap fun f => batch.columnByName f.name) := by
  refine (forall₂_filterMap fun f member => ?_).imp fun f a both => both
  obtain ⟨values, column, length⟩ := (grouped f member).column has
  exact ⟨_, column, column, rfl, length⟩

theorem keysOf_length {groupByFields fields : List Field} {batch : RecordBatch}
    (grouped : ∀ f ∈ groupByFields, Accumulator.FieldOf fields f.name f.dataType)
    (has : batch.fields = fields) : (keysOf groupByFields batch).length = batch.numRows := by
  refine RecordBatch.rowsOf_length fun a member => ?_
  obtain ⟨f, _, _, _, length⟩ := exists_of_mem_right (exists_groupColumns grouped has) member
  exact length

theorem keysOf_typed {groupByFields fields : List Field} {batch : RecordBatch}
    (grouped : ∀ f ∈ groupByFields, Accumulator.FieldOf fields f.name f.dataType)
    (has : batch.fields = fields) :
    ∀ key ∈ keysOf groupByFields batch, KeyTyped groupByFields key := by
  intro key member
  have cells := RecordBatch.forall₂_of_mem_rowsOf member
  refine map_eq_of_forall₂ (forall₂_trans (exists_groupColumns grouped has) cells ?_)
  intro f a v column inside
  obtain ⟨w, _, rfl⟩ := List.mem_map.mp inside
  exact column.2.1

namespace AggregateExec

theorem groupKeys_eq_ok {s : AggregateExec} {fields : List Field} {batch : RecordBatch}
    (grouped : ∀ f ∈ s.groupByFields, Accumulator.FieldOf fields f.name f.dataType)
    (has : batch.fields = fields) :
    s.groupKeys batch = .ok (keysOf s.groupByFields batch) := by
  have columns := exists_groupColumns grouped has
  have looked : s.groupByFields.mapM (fun f =>
      (.orPanic (batch.columnByName f.name) : ExecResult ArrayRef)) =
      .ok (s.groupByFields.filterMap fun f => batch.columnByName f.name) := by
    refine Outcome.mapM_of_forall₂ (columns.imp fun f a both => ?_)
    rw [both.1]
    rfl
  have types : (s.groupByFields.filterMap fun f => batch.columnByName f.name).map ArrayRef.type =
      s.groupByFields.map Field.dataType :=
    map_eq_of_forall₂ (columns.imp fun f a both => both.2.1)
  rw [groupKeys, looked, Outcome.ok_bind, convertColumns, if_pos types, keysOf]

/-- Accumulators that all take a batch do so together. -/
theorem absorbAll_eq_ok {absorb : Accumulator → ExecResult Accumulator} {numGroups : Nat}
    {R : Accumulator → Accumulator → Prop} {accumulators : List Accumulator}
    (each : ∀ acc ∈ accumulators, ∃ acc', absorb acc = .ok acc' ∧ R acc acc') :
    ∃ accumulators', absorbAll absorb numGroups accumulators = (.ok (), accumulators') ∧
      List.Forall₂ R accumulators accumulators' := by
  induction accumulators with
  | nil => exact ⟨[], rfl, .nil⟩
  | cons acc rest ih =>
      obtain ⟨acc', absorbed, related⟩ := each acc (by simp)
      obtain ⟨rest', all, both⟩ := ih fun later member => each later (by simp [member])
      exact ⟨acc' :: rest', by rw [absorbAll, absorbed, all], .cons related both⟩

section Absorb

variable (absorb : RecordBatch → List Nat → Nat → Accumulator → ExecResult Accumulator)
  {s : AggregateExec} {batch : RecordBatch} {R : Accumulator → Accumulator → Prop}

/-- **A batch is taken with GROUP BY**: its keys are added to the table, and each accumulator
gets the positions of the keys. -/
theorem absorbBatch_grouped (grouping : s.groupByFields ≠ []) {seen keys : List GroupKey}
    (table : s.groupToIndex = seen.eraseDups.zipIdx) (found : s.groupKeys batch = .ok keys)
    (few : (seen ++ keys).eraseDups.length ≤ maxGroups)
    (each : ∀ acc ∈ s.accumulators, ∃ acc',
      absorb batch (keys.map fun k => (seen ++ keys).eraseDups.idxOf k)
        (seen ++ keys).eraseDups.length acc = .ok acc' ∧ R acc acc') :
    ∃ accumulators', s.absorbBatch absorb batch =
        (.ok (), { s with
          accumulators := accumulators'
          groupToIndex := (seen ++ keys).eraseDups.zipIdx }) ∧
      List.Forall₂ R s.accumulators accumulators' := by
  obtain ⟨accumulators', all, both⟩ := @absorbAll_eq_ok _
    (seen ++ keys).eraseDups.zipIdx.length R _ each
  rw [List.length_zipIdx] at all
  refine ⟨accumulators', ?_, both⟩
  rw [absorbBatch, if_neg (by simpa using grouping), found]
  simp only [table, assignGroups_eq few, List.length_zipIdx, all]

/-- A batch is taken without GROUP BY: all its rows are in one group. -/
theorem absorbBatch_ungrouped (whole : s.groupByFields = [])
    (each : ∀ acc ∈ s.accumulators, ∃ acc',
      absorb batch (List.replicate batch.numRows 0) 1 acc = .ok acc' ∧ R acc acc') :
    ∃ accumulators', s.absorbBatch absorb batch =
        (.ok (), { s with accumulators := accumulators' }) ∧
      List.Forall₂ R s.accumulators accumulators' := by
  obtain ⟨accumulators', all, both⟩ := @absorbAll_eq_ok _ 1 R _ each
  refine ⟨accumulators', ?_, both⟩
  rw [absorbBatch, if_pos (by simpa using whole), all]

end Absorb

/-- Take batches, one after the other, up to the first that is not taken. -/
def takeBatches
    (absorb : RecordBatch → List Nat → Nat → Accumulator → ExecResult Accumulator)
    (s : AggregateExec) : List RecordBatch → ExecResult AggregateExec
  | [] => .ok s
  | batch :: rest =>
      match s.absorbBatch absorb batch with
      | (.ok (), s) => takeBatches absorb s rest
      | (.err e, _) => .err e
      | (.panic, _) => .panic

/-- The final aggregation takes the batches of its child. -/
theorem consume_eq_takeBatches (s : AggregateExec) (batches : List RecordBatch) :
    s.consume (batches.map .ok) = s.takeBatches Accumulator.merge batches := by
  induction batches generalizing s with
  | nil => rfl
  | cons batch rest ih =>
      rw [List.map_cons, consume, takeBatches]
      cases absorbed : s.absorbBatch Accumulator.merge batch with
      | mk result s' =>
          cases result with
          | ok _ => exact ih s'
          | err e => rfl
          | panic => rfl

end AggregateExec

end TinyOlap.Execution
