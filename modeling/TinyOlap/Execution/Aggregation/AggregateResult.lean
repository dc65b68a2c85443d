import TinyOlap.Execution.Aggregation.GroupValues
import TinyOlap.Physical.Operators

/-!
# The result of an aggregation

Each worker groups the rows of its batches, and sends one row for each of its groups; the
final aggregation groups these rows again. What it returns is what grouping all rows at once
gives: one row for each distinct key, with the number, the sum, the least and the greatest of
the values of all rows with the key (`aggregate_rows`). It does not matter how the rows are
split into batches and how the batches are spread over the workers, and the order in which
the workers' results arrive only decides the order of the rows.
-/

set_option autoImplicit false

namespace TinyOlap.Execution

open Library Library.WorkPool Catalog Arrow Physical

theorem NumericType.dataType_injective {t u : NumericType} (same : t.dataType = u.dataType) :
    t = u := by
  cases t <;> cases u <;> simp_all [NumericType.dataType]

namespace Aggregate

/-! ## Accumulators of aggregates -/

variable {isPartial : Bool} {a : Aggregate} {acc : Accumulator} {groups : List (List Value)}

theorem Holds.slotCount (holds : a.Holds isPartial groups acc) :
    acc.slotCount = groups.length := by
  cases a with
  | count c =>
      subst holds
      exact List.length_map _
  | sum t c =>
      subst holds
      exact List.length_map _
  | min t c =>
      subst holds
      exact (List.length_map _).trans (List.length_map _)
  | max t c =>
      subst holds
      exact (List.length_map _).trans (List.length_map _)
  | avg c =>
      obtain ⟨slots, rfl, means⟩ := holds
      exact means.length_eq.symm
  | float function double c =>
      cases function with
      | sum =>
          obtain ⟨sums, rfl, amounts⟩ := holds
          exact amounts.length_eq.symm
      | min =>
          obtain ⟨opts, rfl, kept⟩ := holds
          exact (List.length_map _).trans kept.length_eq.symm
      | max =>
          obtain ⟨opts, rfl, kept⟩ := holds
          exact (List.length_map _).trans kept.length_eq.symm

theorem Holds.outputField (holds : a.Holds isPartial groups acc) :
    acc.outputField = (a.accumulator isPartial).outputField := by
  cases a with
  | avg c =>
      obtain ⟨slots, rfl, _⟩ := holds
      rfl
  | float function double c =>
      cases function <;> obtain ⟨slots, rfl, _⟩ := holds <;> rfl
  | count c => exact holds ▸ rfl
  | sum t c => exact holds ▸ rfl
  | min t c => exact holds ▸ rfl
  | max t c => exact holds ▸ rfl

/-- The name of the output column. -/
def outputName (a : Aggregate) : String := (a.accumulator true).outputField.name

theorem outputName_eq (a : Aggregate) (isPartial : Bool) :
    (a.accumulator isPartial).outputField.name = a.outputName := by
  cases a with
  | float function double c => cases function <;> rfl
  | _ => rfl

/-- A batch with these fields has the column. -/
def ReadsFrom (fields : List Field) (a : Aggregate) : Prop :=
  (a.accumulator true).ReadsFrom fields

theorem ReadsFrom.accumulator {fields : List Field} (reads : a.ReadsFrom fields)
    (isPartial : Bool) : (a.accumulator isPartial).ReadsFrom fields := by
  cases a with
  | float function double c => cases function <;> exact reads
  | _ => exact reads

/-- The function of an aggregate. -/
def function : Aggregate → AggFunc
  | count _ => .count
  | sum .. | float .sum _ _ => .sum
  | min .. | float .min _ _ => .min
  | max .. | float .max _ _ => .max
  | avg _ => .avg

/-- The name of the output of a function. -/
def nameOf (c : String) : AggFunc → String
  | .count => "count(" ++ c ++ ")"
  | .sum => "sum(" ++ c ++ ")"
  | .min => "min(" ++ c ++ ")"
  | .max => "max(" ++ c ++ ")"
  | .avg => "avg(" ++ c ++ ")"

theorem outputName_eq_nameOf (a : Aggregate) : a.outputName = nameOf a.columnName a.function := by
  cases a with
  | float function double c => cases function <;> rfl
  | _ => rfl

theorem append_cancel {first c c' last : String} (same : first ++ c ++ last = first ++ c' ++ last) :
    c = c' := by
  have chars := congrArg String.toList same
  simp only [String.toList_append, List.append_assoc] at chars
  exact String.toList_injective (List.append_cancel_right (List.append_cancel_left chars))

/-- Names of outputs tell functions and columns apart. -/
theorem nameOf_injective {c c' : String} {f f' : AggFunc} (same : nameOf c f = nameOf c' f') :
    f = f' ∧ c = c' := by
  by_cases equal : f = f'
  · subst equal
    exact ⟨rfl, by cases f <;> exact append_cancel same⟩
  · have chars := congrArg String.toList same
    cases f <;> cases f' <;>
      first | exact (equal rfl).elim | simp [nameOf] at chars

/-- The column has one type. -/
theorem fieldOf_unique {fields : List Field} {name : String} {t u : ArrowType}
    (first : Accumulator.FieldOf fields name t) (second : Accumulator.FieldOf fields name u) :
    t = u := by
  obtain ⟨f, found, type⟩ := first
  obtain ⟨f', found', type'⟩ := second
  cases found.symm.trans found'
  exact type.symm.trans type'

/-- The type for which a sum, a minimum or a maximum is built. -/
def numericType : Aggregate → Option NumericType
  | sum t _ | min t _ | max t _ => some (.int t)
  | float _ double _ => some (floatType double)
  | count _ | avg _ => none

theorem ReadsFrom.fieldOf {fields : List Field} {t : NumericType} (reads : a.ReadsFrom fields)
    (built : a.numericType = some t) :
    Accumulator.FieldOf fields a.columnName (.data t.dataType) := by
  cases a with
  | count c => cases built
  | avg c => cases built
  | float function double c =>
      cases built
      cases function <;> exact reads
  | sum t c =>
      cases built
      exact reads
  | min t c =>
      cases built
      exact reads
  | max t c =>
      cases built
      exact reads

theorem numericType_eq_none : a.numericType = none ↔ a.function = .count ∨ a.function = .avg := by
  cases a with
  | float function double c => cases function <;> simp [numericType, function]
  | _ => simp [numericType, function]

/-- An aggregate is its function, its column and the type for which it is built. -/
theorem eq_of_parts {b : Aggregate} (functions : a.function = b.function)
    (columns : a.columnName = b.columnName) (types : a.numericType = b.numericType) : a = b := by
  cases a with
  | float f double c =>
      cases b with
      | float f' double' c' =>
          cases f <;> cases f' <;> cases double <;> cases double' <;>
            simp_all [function, columnName, numericType]
      | _ => cases f <;> cases double <;> simp_all [function, columnName, numericType]
  | _ =>
      cases b with
      | float f' double' c' =>
          cases f' <;> cases double' <;> simp_all [function, columnName, numericType]
      | _ => simp_all [function, columnName, numericType]

/-- Over the same columns, aggregates with the same output name are the same. -/
theorem eq_of_outputName {fields : List Field} {b : Aggregate} (reads : a.ReadsFrom fields)
    (reads' : b.ReadsFrom fields) (same : a.outputName = b.outputName) : a = b := by
  rw [outputName_eq_nameOf, outputName_eq_nameOf] at same
  obtain ⟨functions, columns⟩ := nameOf_injective same
  refine eq_of_parts functions columns ?_
  have none_iff : a.numericType = none ↔ b.numericType = none := by
    rw [numericType_eq_none, numericType_eq_none, functions]
  cases built : a.numericType with
  | none => exact (none_iff.mp built).symm
  | some t =>
      cases built' : b.numericType with
      | none => rw [none_iff.mpr built'] at built; cases built
      | some u =>
          have types := fieldOf_unique (reads.fieldOf built)
            (columns ▸ reads'.fieldOf built')
          exact congrArg some (NumericType.dataType_injective (ArrowType.data.inj types))

/-! ## The values of a group -/

/-- The rows of a batch, each with its key and its value. -/
def keyedRows (groupByFields : List Field) (a : Aggregate) (batch : RecordBatch) :
    List (GroupKey × Value) :=
  (keysOf groupByFields batch).zip (cellsOf batch a.columnName)

/-- **The values of a group**, one for each of its rows in the batches. -/
def groupValues (groupByFields : List Field) (batches : List RecordBatch) (k : GroupKey)
    (a : Aggregate) : List Value :=
  entriesOf (batches.flatMap (keyedRows groupByFields a)) k

variable {groupByFields fields : List Field} {batches : List RecordBatch}

theorem groupValues_append (batches more : List RecordBatch) (k : GroupKey) :
    groupValues groupByFields (batches ++ more) k a =
      groupValues groupByFields batches k a ++ groupValues groupByFields more k a := by
  rw [groupValues, List.flatMap_append, entriesOf_append, groupValues, groupValues]

theorem keys_keyedRows
    (grouped : ∀ f ∈ groupByFields, Accumulator.FieldOf fields f.name f.dataType)
    (has : ∀ batch ∈ batches, batch.fields = fields) :
    (batches.flatMap (keyedRows groupByFields a)).map Prod.fst =
      batches.flatMap (keysOf groupByFields) := by
  rw [List.map_flatMap]
  refine List.flatMap_congr fun batch member => ?_
  rw [keyedRows, List.map_fst_zip]
  rw [keysOf_length grouped (has batch member), cellsOf_length]

/-- A group has values exactly if its key appears. -/
theorem groupValues_eq_nil_iff
    (grouped : ∀ f ∈ groupByFields, Accumulator.FieldOf fields f.name f.dataType)
    (has : ∀ batch ∈ batches, batch.fields = fields) {k : GroupKey} :
    groupValues groupByFields batches k a = [] ↔ k ∉ batches.flatMap (keysOf groupByFields) := by
  rw [groupValues, entriesOf_eq_nil_iff, keys_keyedRows grouped has]

end Aggregate

/-! ## The state after some batches -/

namespace AggregateExec

/-- The aggregation has the slots of these keys, with what the values of their groups amount
to. -/
structure Sums (isPartial : Bool) (aggregates : List Aggregate) (groupByFields : List Field)
    (keys : List GroupKey) (values : Aggregate → GroupKey → List Value) (s : AggregateExec) :
    Prop where
  fields : s.groupByFields = groupByFields
  schema : s.outputSchema = groupByFields ++
    aggregates.map fun a => (a.accumulator isPartial).outputField
  going : s.emitted = false
  table : groupByFields ≠ [] → s.groupToIndex = keys.zipIdx
  slots : List.Forall₂ (fun a acc => a.Holds isPartial (keys.map (values a)) acc) aggregates
    s.accumulators

variable {isPartial : Bool} {aggregates : List Aggregate} {groupByFields fields : List Field}
  {s : AggregateExec} {batch : RecordBatch} {seen keys ks : List GroupKey}
  {values values' : Aggregate → GroupKey → List Value}

theorem sums_start (isPartial : Bool) (aggregates : List Aggregate)
    (groupByFields : List Field) (values : Aggregate → GroupKey → List Value) :
    (HashAggregateExec.new (aggregates.map (Aggregate.accumulator isPartial))
      groupByFields).Sums isPartial aggregates groupByFields [] values := by
  refine ⟨rfl, ?_, rfl, fun _ => rfl, ?_⟩
  · rw [HashAggregateExec.new, List.map_map]
    rfl
  · exact List.forall₂_map_right_iff.mpr
      (List.forall₂_same.mpr fun a _ => a.holds_accumulator isPartial)

theorem Sums.congr (sums : s.Sums isPartial aggregates groupByFields keys values)
    (same : ∀ a ∈ aggregates, ∀ k ∈ keys, values a k = values' a k) :
    s.Sums isPartial aggregates groupByFields keys values' := by
  refine ⟨sums.fields, sums.schema, sums.going, sums.table, ?_⟩
  refine ((List.forall₂_and_left _ _).mpr ⟨same, sums.slots⟩).imp fun a acc both => ?_
  rw [← List.map_congr_left both.1]
  exact both.2

/-- How the keys go on. Without GROUP BY there is only the empty key. -/
structure GoesOn (groupByFields : List Field) (seen ks old keys : List GroupKey) : Prop where
  grouped : groupByFields ≠ [] → old = seen.eraseDups ∧ keys = (seen ++ ks).eraseDups
  whole : groupByFields = [] → keys = [[]]
  begins : old <+: keys
  distinct : keys.Nodup
  known : ∀ k ∈ ks, k ∈ keys
  few : keys.length ≤ maxGroups

/-- **A batch is taken**, given that every accumulator takes it. -/
theorem Sums.absorbBatch {old : List GroupKey}
    (absorb : RecordBatch → List Nat → Nat → Accumulator → ExecResult Accumulator)
    (sums : s.Sums isPartial aggregates groupByFields old values)
    (grouped : ∀ f ∈ groupByFields, Accumulator.FieldOf batch.fields f.name f.dataType)
    (goes : GoesOn groupByFields seen (keysOf groupByFields batch) old keys)
    (each : ∀ a ∈ aggregates, ∀ acc, a.Holds isPartial (old.map (values a)) acc →
      ∃ acc', absorb batch ((keysOf groupByFields batch).map keys.idxOf) keys.length acc =
          .ok acc' ∧ a.Holds isPartial (keys.map (values' a)) acc') :
    ∃ s', s.absorbBatch absorb batch = (.ok (), s') ∧
      s'.Sums isPartial aggregates groupByFields keys values' := by
  have taken : ∀ acc ∈ s.accumulators, ∃ acc',
      absorb batch ((keysOf groupByFields batch).map keys.idxOf) keys.length acc = .ok acc' ∧
      ∀ a ∈ aggregates, a.Holds isPartial (old.map (values a)) acc →
        a.Holds isPartial (keys.map (values' a)) acc' := by
    intro acc member
    obtain ⟨a, here, holds⟩ := exists_of_mem_right sums.slots member
    obtain ⟨acc', absorbed, _⟩ := each a here acc holds
    refine ⟨acc', absorbed, fun b inside holds => ?_⟩
    obtain ⟨acc'', absorbed', holds'⟩ := each b inside acc holds
    cases absorbed.symm.trans absorbed'
    exact holds'
  have onwards : ∀ {accumulators' : List Accumulator},
      List.Forall₂ (fun acc acc' => ∀ a ∈ aggregates, a.Holds isPartial (old.map (values a)) acc →
        a.Holds isPartial (keys.map (values' a)) acc') s.accumulators accumulators' →
      List.Forall₂ (fun a acc => a.Holds isPartial (keys.map (values' a)) acc) aggregates
        accumulators' := by
    intro accumulators' both
    have members := (List.forall₂_and_left aggregates _).mpr ⟨fun _ member => member, sums.slots⟩
    exact forall₂_trans members both fun a acc acc' held later => later a held.1 held.2
  by_cases whole : groupByFields = []
  · have only := goes.whole whole
    have indices : (keysOf groupByFields batch).map keys.idxOf =
        List.replicate batch.numRows 0 := by
      rw [← keysOf_length grouped rfl, List.eq_replicate_iff]
      refine ⟨List.length_map _, fun idx member => ?_⟩
      obtain ⟨k, inside, rfl⟩ := List.mem_map.mp member
      have same : k = [] := by simpa [only] using goes.known k inside
      rw [only, same]
      rfl
    rw [indices, only, List.length_singleton] at taken
    obtain ⟨accumulators', absorbed, both⟩ :=
      absorbBatch_ungrouped absorb (sums.fields.trans whole) taken
    exact ⟨_, absorbed, sums.fields, sums.schema, sums.going, fun grouping => (grouping whole).elim,
      only ▸ onwards (only ▸ both)⟩
  · obtain ⟨rfl, rfl⟩ := goes.grouped whole
    have found : s.groupKeys batch = .ok (keysOf groupByFields batch) := by
      rw [← sums.fields]
      exact groupKeys_eq_ok (sums.fields ▸ grouped) rfl
    obtain ⟨accumulators', absorbed, both⟩ := absorbBatch_grouped absorb (sums.fields ▸ whole)
      (sums.table whole) found goes.few taken
    exact ⟨_, absorbed, sums.fields, sums.schema, sums.going, fun _ => rfl, onwards both⟩

/-! ## A worker -/

/-- The keys of a batch without GROUP BY are empty. -/
theorem keysOf_nil (batch : RecordBatch) : keysOf [] batch = List.replicate batch.numRows [] := rfl

theorem goesOn_batch {batches : List RecordBatch}
    (filled : groupByFields = [] → 0 < batch.numRows)
    (few : ((batches ++ [batch]).flatMap (keysOf groupByFields)).eraseDups.length ≤ maxGroups) :
    GoesOn groupByFields (batches.flatMap (keysOf groupByFields)) (keysOf groupByFields batch)
      (batches.flatMap (keysOf groupByFields)).eraseDups
      ((batches ++ [batch]).flatMap (keysOf groupByFields)).eraseDups := by
  rw [List.flatMap_append, List.flatMap_singleton] at few ⊢
  refine ⟨fun _ => ⟨rfl, rfl⟩, fun whole => ?_, eraseDups_prefix_append _ _, nodup_eraseDups _,
    fun k member => List.mem_eraseDups.mpr (by simp [member]), few⟩
  subst whole
  have rows := filled rfl
  refine eraseDups_of_all (fun none => ?_) fun k member => ?_
  · rw [List.append_eq_nil_iff, keysOf_nil, List.replicate_eq_nil_iff] at none
    omega
  · have all : ∀ b : RecordBatch, ∀ k ∈ keysOf [] b, k = [] := fun b k member =>
      (List.mem_replicate.mp (keysOf_nil b ▸ member)).2
    rcases List.mem_append.mp member with earlier | here
    · obtain ⟨b, _, inside⟩ := List.mem_flatMap.mp earlier
      exact all b k inside
    · exact all batch k here

/-- The state after the batches of a worker. -/
abbrev Updated (isPartial : Bool) (aggregates : List Aggregate) (groupByFields : List Field)
    (batches : List RecordBatch) (s : AggregateExec) : Prop :=
  s.Sums isPartial aggregates groupByFields (batches.flatMap (keysOf groupByFields)).eraseDups
    fun a k => Aggregate.groupValues groupByFields batches k a

/-- **A worker takes its batches**, one after the other. -/
theorem Sums.takeUpdates {before more : List RecordBatch}
    (sums : s.Updated isPartial aggregates groupByFields before)
    (grouped : ∀ f ∈ groupByFields, Accumulator.FieldOf fields f.name f.dataType)
    (reads : ∀ a ∈ aggregates, a.ReadsFrom fields)
    (has : ∀ b ∈ before ++ more, b.fields = fields ∧ 0 < b.numRows)
    (few : ((before ++ more).flatMap (keysOf groupByFields)).eraseDups.length ≤ maxGroups) :
    ∃ s', s.takeBatches Accumulator.update more = .ok s' ∧
      s'.Updated isPartial aggregates groupByFields (before ++ more) := by
  induction more generalizing before s with
  | nil => exact ⟨s, rfl, by simpa using sums⟩
  | cons batch rest ih =>
      obtain ⟨batchFields, rows⟩ := has batch (by simp)
      rw [List.append_cons] at has few ⊢
      have fewer : ((before ++ [batch]).flatMap (keysOf groupByFields)).eraseDups.length ≤
          maxGroups := by
        rw [List.flatMap_append] at few
        exact (eraseDups_prefix_append _ _).length_le.trans few
      have groupedHere := batchFields ▸ grouped
      have goes := @goesOn_batch groupByFields batch before (fun _ => rows) fewer
      obtain ⟨next, taken, sums'⟩ := sums.absorbBatch Accumulator.update groupedHere goes
        fun a member acc holds => Aggregate.update_holds holds goes.begins goes.distinct
          (fun k new => (Aggregate.groupValues_eq_nil_iff grouped
            fun b inside => (has b (by simp [inside])).1).mpr fun known =>
              new (List.mem_eraseDups.mpr known))
          goes.known (keysOf_length groupedHere rfl)
          (batchFields ▸ (reads a member).accumulator isPartial)
      have updated : next.Updated isPartial aggregates groupByFields (before ++ [batch]) :=
        sums'.congr fun a _ k _ => by
          rw [Aggregate.groupValues_append]
          congr 1
          rw [Aggregate.groupValues, List.flatMap_singleton, Aggregate.keyedRows]
      obtain ⟨s', later, sums''⟩ := ih updated has few
      refine ⟨s', ?_, sums''⟩
      rw [takeBatches, taken]
      exact later

/-! ## What is sent -/

/-- A batch of this output: the keys, then the slots. -/
structure Output (isPartial : Bool) (aggregates : List Aggregate) (groupByFields : List Field)
    (keys : List GroupKey) (values : Aggregate → GroupKey → List Value) (out : RecordBatch) :
    Prop where
  fields : out.fields = groupByFields ++
    aggregates.map fun a => (a.accumulator isPartial).outputField
  rows : out.numRows = keys.length
  columns : ∃ (arrays : List ArrayRef) (accumulators : List Accumulator),
    out.columns = arrays ++ accumulators.map Accumulator.materialize ∧
    arrays.length = groupByFields.length ∧ RecordBatch.rowsOf keys.length arrays = keys ∧
    List.Forall₂ (fun a acc => a.Holds isPartial (keys.map (values a)) acc) aggregates
      accumulators

theorem Sums.finish (sums : s.Sums isPartial aggregates groupByFields keys values)
    (some : groupByFields ≠ [] ∨ aggregates ≠ [])
    (typed : ∀ key ∈ keys, KeyTyped groupByFields key) :
    ∃ out, s.finish.1 = .ok out ∧ s.finish.2.emitted = true ∧
      Output isPartial aggregates groupByFields keys values out := by
  have schema : s.outputSchema =
      s.groupByFields ++ s.accumulators.map Accumulator.outputField := by
    rw [sums.schema, sums.fields]
    congr 1
    exact (map_eq_of_forall₂ (sums.slots.imp fun a acc holds => holds.outputField)).symm
  have slots : ∀ acc ∈ s.accumulators, acc.slotCount = keys.length := by
    intro acc member
    obtain ⟨a, _, holds⟩ := exists_of_mem_right sums.slots member
    rw [holds.slotCount, List.length_map]
  have some' : s.groupByFields ≠ [] ∨ s.accumulators ≠ [] := by
    refine some.imp (sums.fields ▸ ·) fun slot none => ?_
    have length := sums.slots.length_eq
    rw [none, List.length_nil, List.length_eq_zero_iff] at length
    exact slot length
  obtain ⟨out, arrays, made, emitted, fields, rows, columns, count, keys⟩ :=
    finish_eq_ok (sums.fields ▸ sums.table) some' schema (sums.fields ▸ typed) slots
  exact ⟨out, made, emitted, fields.trans sums.schema, rows, arrays, s.accumulators, columns,
    sums.fields ▸ count, keys, sums.slots⟩

/-- Taking a batch does not end the aggregation. -/
theorem emitted_absorbBatch
    (absorb : RecordBatch → List Nat → Nat → Accumulator → ExecResult Accumulator)
    (s : AggregateExec) (batch : RecordBatch) :
    (s.absorbBatch absorb batch).2.emitted = s.emitted := by
  unfold absorbBatch
  split
  · rfl
  · split <;> rfl

/-- The operator makes of its batches what they are taken to. -/
theorem result_hashAggregate {s' : AggregateExec} {batches : List RecordBatch} {out : RecordBatch}
    (going : s.emitted = false) (taken : s.takeBatches Accumulator.update batches = .ok s')
    (made : s'.finish.1 = .ok out) (emitted : s'.finish.2.emitted = true) :
    hashAggregateExec.result s (batches.map .ok) = some [.ok out] := by
  have fed : hashAggregateExec.feed s (batches.map .ok) = some (s', []) ∧ s'.emitted = false := by
    clear made emitted
    induction batches generalizing s with
    | nil =>
        cases taken
        exact ⟨rfl, going⟩
    | cons batch rest ih =>
        rw [takeBatches] at taken
        cases absorbed : s.absorbBatch Accumulator.update batch with
        | mk result next =>
            rw [absorbed] at taken
            cases result with
            | ok _ =>
                have kept : next.emitted = false := by
                  rw [← going, ← s.emitted_absorbBatch Accumulator.update batch, absorbed]
                obtain ⟨later, last⟩ := ih kept taken
                refine ⟨?_, last⟩
                rw [List.map_cons, Operator.feed, if_neg (by simp [hashAggregateExec, going])]
                simp only [hashAggregateExec, absorbed]
                exact later
            | err e => cases taken
            | panic => cases taken
  have closed : hashAggregateExec.close s' = some [.ok out] := by
    have last : hashAggregateExec.last s' = .ret (some (.ok out)) s'.finish.2 := by
      simp only [hashAggregateExec, made]
      rfl
    rw [Operator.close, if_neg (by simp [hashAggregateExec, fed.2]), last]
    simp [hashAggregateExec, emitted]
  rw [Operator.result, fed.1, Option.bind_some, closed]
  rfl

/-! ## What is found under a name -/

/-- Columns of the same name have the same cell in the key. -/
def SameNames (groupByFields : List Field) (key : GroupKey) : Prop :=
  ∀ (i j : Nat) (f g : Field), groupByFields[i]? = some f → groupByFields[j]? = some g →
    f.name = g.name → key[i]? = key[j]?

theorem keysOf_sameNames
    (grouped : ∀ f ∈ groupByFields, Accumulator.FieldOf batch.fields f.name f.dataType) :
    ∀ key ∈ keysOf groupByFields batch, SameNames groupByFields key := by
  intro key member i j f g atI atJ same
  have columns := exists_groupColumns grouped rfl
  have lengths : ∀ a ∈ groupByFields.filterMap fun f => batch.columnByName f.name,
      a.length = batch.numRows := by
    intro a member
    obtain ⟨f, _, _, _, length⟩ := exists_of_mem_right columns member
    exact length
  obtain ⟨a, hereI, columnI, _⟩ := exists_of_getElem? columns.flip atI
  obtain ⟨b, hereJ, columnJ, _⟩ := exists_of_getElem? columns.flip atJ
  rw [same, columnJ] at columnI
  cases columnI
  have cells := (RecordBatch.rowsOf_map_getElem? lengths hereI).trans
    (RecordBatch.rowsOf_map_getElem? lengths hereJ).symm
  exact List.map_inj_left.mp cells key member

/-- What a field of the GROUP BY clause is looked up for is found in the output. -/
theorem fieldOf_output {isPartial : Bool}
    (grouped : ∀ f ∈ groupByFields, Accumulator.FieldOf fields f.name f.dataType)
    {out : RecordBatch} (output : Output isPartial aggregates groupByFields keys values out) :
    ∀ f ∈ groupByFields, Accumulator.FieldOf out.fields f.name f.dataType := by
  intro f member
  obtain ⟨g, found⟩ : ∃ g, groupByFields.find? (fun g => g.name = f.name) = some g :=
    Option.isSome_iff_exists.mp (List.find?_isSome.mpr ⟨f, member, by simp⟩)
  have named : g.name = f.name := by simpa using List.find?_some found
  obtain ⟨h, here, type⟩ := grouped g (List.mem_of_find?_eq_some found)
  obtain ⟨h', here', type'⟩ := grouped f member
  rw [named, here'] at here
  cases here
  exact ⟨g, by rw [output.fields, List.find?_append, found, Option.some_or], type.symm.trans type'⟩

/-- **The keys are read back** from the output. -/
theorem keysOf_output {isPartial : Bool}
    (grouped : ∀ f ∈ groupByFields, Accumulator.FieldOf fields f.name f.dataType)
    (consistent : ∀ key ∈ keys, SameNames groupByFields key) {out : RecordBatch}
    (output : Output isPartial aggregates groupByFields keys values out) :
    keysOf groupByFields out = keys := by
  obtain ⟨arrays, accumulators, columns, count, rows, _⟩ := output.columns
  have lengths : ∀ a ∈ arrays, a.length = keys.length := fun a member => by
    rw [out.lengths a (by rw [columns]; simp [member]), output.rows]
  have types : List.Forall₂ (fun f a => a.type = f.dataType) groupByFields arrays := by
    have typed := out.typed
    rw [columns, output.fields, List.map_append, List.map_append] at typed
    exact forall₂_of_map_eq (List.append_inj_left typed (by simpa using count))
  have looked : List.Forall₂ (fun f a => out.columnByName f.name = some a) groupByFields
      arrays := by
    refine (forall₂_getElem? types).imp fun f a entry => ?_
    obtain ⟨j, atF, atA, typeA⟩ := entry
    obtain ⟨g, found⟩ : ∃ g, groupByFields.find? (fun g => g.name = f.name) = some g :=
      Option.isSome_iff_exists.mp
        (List.find?_isSome.mpr ⟨f, List.mem_of_getElem? atF, by simp⟩)
    have named : g.name = f.name := by simpa using List.find?_some found
    obtain ⟨i, position, atG⟩ := RecordBatch.findIdx?_of_find? found
    obtain ⟨b, atB, typeB⟩ := exists_of_getElem? types.flip atG
    -- the first column of the name has the same cells
    have cells : b.cells.map some = a.cells.map some := by
      rw [← RecordBatch.rowsOf_map_getElem? lengths atB,
        ← RecordBatch.rowsOf_map_getElem? lengths atA, rows]
      exact List.map_congr_left fun key member => consistent key member i j g f atG atF named
    have sameType : b.type = a.type := by
      rw [typeA, typeB]
      obtain ⟨h, here, type⟩ := grouped g (List.mem_of_getElem? atG)
      obtain ⟨h', here', type'⟩ := grouped f (List.mem_of_getElem? atF)
      rw [named, here'] at here
      cases here
      exact type.symm.trans type'
    have same : b = a := ArrayRef.ext_cells sameType
      (List.map_injective_iff.mpr (Option.some_injective _) cells)
    refine @RecordBatch.columnByName_eq _ _ i _ ?_ ?_
    · rw [output.fields, List.findIdx?_append, position, Option.some_or]
    · rw [columns, List.getElem?_append_left (List.getElem?_eq_some_iff.mp atB).1, atB, same]
  rw [keysOf, filterMap_of_forall₂ looked, output.rows, rows]

/-- **The slots of an aggregate are found** in the output, unless a group column has their
name. -/
theorem columnByName_output
    (reads : ∀ a ∈ aggregates, a.ReadsFrom fields)
    (clear : ∀ f ∈ groupByFields, ∀ a ∈ aggregates, f.name ≠ a.outputName) {out : RecordBatch}
    (output : Output true aggregates groupByFields keys values out) {a : Aggregate}
    (member : a ∈ aggregates) :
    ∃ sent, a.Holds true (keys.map (values a)) sent ∧
      out.columnByName a.outputName = some sent.materialize := by
  obtain ⟨arrays, accumulators, columns, count, _, slots⟩ := output.columns
  have first : ∃ sent, a.Holds true (keys.map (values a)) sent ∧
      ((aggregates.map fun a => (a.accumulator true).outputField).zip
        (accumulators.map Accumulator.materialize)).find? (fun entry =>
          entry.1.name = a.outputName) =
        some ((a.accumulator true).outputField, sent.materialize) := by
    clear columns clear output
    induction slots with
    | nil => cases member
    | @cons b acc aggregates accumulators holds _ ih =>
        rw [List.map_cons, List.map_cons, List.zip_cons_cons, List.find?_cons]
        by_cases same : (b.accumulator true).outputField.name = a.outputName
        · have equal := Aggregate.eq_of_outputName (reads b (by simp)) (reads a member) same
          subst equal
          exact ⟨acc, holds, by simp [same]⟩
        · have later : a ∈ aggregates := by
            refine (List.mem_cons.mp member).resolve_left ?_
            rintro rfl
            exact same rfl
          obtain ⟨sent, holds', found⟩ := ih (fun b inside => reads b (by simp [inside])) later
          exact ⟨sent, holds', by simpa [same] using found⟩
  obtain ⟨sent, holds, found⟩ := first
  refine ⟨sent, holds, ?_⟩
  have absent : (groupByFields.zip arrays).find? (fun entry => entry.1.name = a.outputName) =
      none := by
    refine List.find?_eq_none.mpr fun entry inside => ?_
    simpa using clear entry.1 (List.of_mem_zip inside).1 a member
  rw [RecordBatch.columnByName, output.fields, columns, List.zip_append count.symm,
    List.find?_append, absent, Option.none_or, found]
  rfl

/-! ## From the workers to the result -/

/-- What the query is about: the columns that are grouped by and aggregated are there, no group
column has the name of an aggregate's output, and there is something to return. -/
structure Sound (aggregates : List Aggregate) (groupByFields fields : List Field) : Prop where
  grouped : ∀ f ∈ groupByFields, Accumulator.FieldOf fields f.name f.dataType
  reads : ∀ a ∈ aggregates, a.ReadsFrom fields
  clear : ∀ f ∈ groupByFields, ∀ a ∈ aggregates, f.name ≠ a.outputName
  some : groupByFields ≠ [] ∨ aggregates ≠ []

/-- A batch with rows, with these fields. -/
def HasRows (fields : List Field) (batch : RecordBatch) : Prop :=
  batch.fields = fields ∧ 0 < batch.numRows

/-- The keys of the rows of batches, once each. -/
abbrev distinctKeys (groupByFields : List Field) (batches : List RecordBatch) : List GroupKey :=
  (batches.flatMap (keysOf groupByFields)).eraseDups

/-- The keys of the result. Without GROUP BY there is one row in any case. -/
def resultKeys (groupByFields : List Field) (batches : List RecordBatch) : List GroupKey :=
  if groupByFields = [] then [[]] else distinctKeys groupByFields batches

theorem keys_typed {batches : List RecordBatch}
    (grouped : ∀ f ∈ groupByFields, Accumulator.FieldOf fields f.name f.dataType)
    (has : ∀ b ∈ batches, b.fields = fields) :
    ∀ key ∈ distinctKeys groupByFields batches,
      KeyTyped groupByFields key ∧ SameNames groupByFields key := by
  intro key member
  obtain ⟨batch, inside, here⟩ := List.mem_flatMap.mp (List.mem_eraseDups.mp member)
  exact ⟨keysOf_typed grouped (has batch inside) key here,
    keysOf_sameNames (has batch inside ▸ grouped) key here⟩

/-- A worker has sent this batch for its own. -/
abbrev PartialOf (aggregates : List Aggregate) (groupByFields : List Field)
    (batches : List RecordBatch) (sent : RecordBatch) : Prop :=
  Output true aggregates groupByFields (distinctKeys groupByFields batches)
    (fun a k => Aggregate.groupValues groupByFields batches k a) sent

/-- **A worker sends one batch**, whatever it has been given. -/
theorem exists_sent (sound : Sound aggregates groupByFields fields) {batches : List RecordBatch}
    (filled : ∀ b ∈ batches, HasRows fields b)
    (few : (distinctKeys groupByFields batches).length ≤ maxGroups) :
    ∃ sent, hashAggregateExec.result (HashAggregateExec.new
        (aggregates.map (Aggregate.accumulator true)) groupByFields) (batches.map .ok) =
        some [.ok sent] ∧ PartialOf aggregates groupByFields batches sent := by
  have begins : (HashAggregateExec.new (aggregates.map (Aggregate.accumulator true))
      groupByFields).Updated true aggregates groupByFields [] := sums_start _ _ _ _
  obtain ⟨s, taken, sums⟩ := @Sums.takeUpdates _ _ _ fields _ [] batches begins sound.grouped
    sound.reads filled few
  obtain ⟨out, made, emitted, output⟩ := sums.finish sound.some fun key member =>
    (keys_typed sound.grouped (fun b inside => (filled b inside).1) key member).1
  exact ⟨out, result_hashAggregate rfl taken made emitted, output⟩

/-- The final aggregation at the start. -/
theorem sums_merge (aggregates : List Aggregate) (groupByFields : List Field) :
    (MergeAggregateExec.new (aggregates.map (Aggregate.accumulator false))
      groupByFields).Sums false aggregates groupByFields (resultKeys groupByFields [])
        fun a k => Aggregate.groupValues groupByFields [] k a := by
  have sums := sums_start false aggregates groupByFields
    fun a k => Aggregate.groupValues groupByFields [] k a
  rw [MergeAggregateExec.new, resultKeys]
  by_cases whole : groupByFields = []
  · subst whole
    simp only [List.isEmpty_nil, if_true]
    refine ⟨rfl, ?_, rfl, fun grouping => (grouping rfl).elim, ?_⟩
    · rw [← sums.schema]
      simp only [HashAggregateExec.new, List.map_map]
      congr 1
      exact List.map_congr_left fun a _ => (Accumulator.sameKind_ensureCapacity _ _).1
    · refine List.forall₂_map_right_iff.mpr (sums.slots.imp fun a acc holds => ?_)
      exact Aggregate.Holds.ensureCapacity holds ⟨[[]], rfl⟩ (by simp) fun _ _ => rfl
  · simp only [List.isEmpty_iff, if_neg whole]
    exact sums

theorem mem_resultKeys {batches : List RecordBatch} {k : GroupKey}
    (known : k ∈ batches.flatMap (keysOf groupByFields)) :
    k ∈ resultKeys groupByFields batches := by
  rw [resultKeys]
  split
  · rename_i whole
    subst whole
    obtain ⟨b, _, inside⟩ := List.mem_flatMap.mp known
    simp [(List.mem_replicate.mp (keysOf_nil b ▸ inside)).2]
  · exact List.mem_eraseDups.mpr known

/-- How the keys of the result go on. -/
theorem goesOn_sent {before batches : List RecordBatch}
    (few : (distinctKeys groupByFields (before ++ batches)).length ≤ maxGroups) :
    GoesOn groupByFields (before.flatMap (keysOf groupByFields))
      (distinctKeys groupByFields batches) (resultKeys groupByFields before)
      (resultKeys groupByFields (before ++ batches)) := by
  have split : distinctKeys groupByFields (before ++ batches) =
      (before.flatMap (keysOf groupByFields) ++ distinctKeys groupByFields batches).eraseDups := by
    rw [distinctKeys, distinctKeys, List.flatMap_append, eraseDups_append_eraseDups]
  by_cases whole : groupByFields = []
  · subst whole
    refine ⟨fun grouping => (grouping rfl).elim, fun _ => rfl, List.prefix_rfl,
      by simp [resultKeys],
      fun k member => mem_resultKeys ?_, by simp [resultKeys, maxGroups]⟩
    rw [List.flatMap_append]
    exact List.mem_append_right _ (List.mem_eraseDups.mp member)
  · simp only [resultKeys, if_neg whole]
    refine ⟨fun _ => ⟨rfl, split⟩, fun empty => (whole empty).elim, ?_, nodup_eraseDups _,
      fun k member => ?_, few⟩
    · rw [split]
      exact eraseDups_prefix_append _ _
    · rw [split]
      exact List.mem_eraseDups.mpr (List.mem_append_right _ member)

/-- The state after the results of some workers, who had these batches. -/
abbrev Merged (aggregates : List Aggregate) (groupByFields : List Field)
    (batches : List RecordBatch) (s : AggregateExec) : Prop :=
  s.Sums false aggregates groupByFields (resultKeys groupByFields batches)
    fun a k => Aggregate.groupValues groupByFields batches k a

/-- **The result of a worker is merged**: it counts as the worker's batches. -/
theorem Sums.takePartial {before batches : List RecordBatch} {sent : RecordBatch}
    (sums : s.Merged aggregates groupByFields before)
    (sound : Sound aggregates groupByFields fields)
    (has : ∀ b ∈ before ++ batches, b.fields = fields)
    (few : (distinctKeys groupByFields (before ++ batches)).length ≤ maxGroups)
    (sends : PartialOf aggregates groupByFields batches sent) :
    ∃ s', s.absorbBatch Accumulator.merge sent = (.ok (), s') ∧
      s'.Merged aggregates groupByFields (before ++ batches) := by
  have keys := keysOf_output sound.grouped (fun key member => (keys_typed sound.grouped
    (fun b inside => has b (by simp [inside])) key member).2) sends
  have goes := @goesOn_sent groupByFields before batches few
  rw [← keys] at goes
  have hasHere : ∀ b ∈ batches, b.fields = fields := fun b inside => has b (by simp [inside])
  have absent : ∀ (a : Aggregate), ∀ k ∉ resultKeys groupByFields before,
      Aggregate.groupValues groupByFields before k a = [] := by
    intro a k new
    refine (Aggregate.groupValues_eq_nil_iff sound.grouped
      fun b inside => has b (by simp [inside])).mpr fun known => new (mem_resultKeys known)
  have filled : ∀ (a : Aggregate), ∀ vs ∈ (distinctKeys groupByFields batches).map
      (fun k => Aggregate.groupValues groupByFields batches k a), vs ≠ [] := by
    intro a vs member
    obtain ⟨k, listed, rfl⟩ := List.mem_map.mp member
    rw [ne_eq, Aggregate.groupValues_eq_nil_iff sound.grouped hasHere, not_not]
    exact List.mem_eraseDups.mp listed
  obtain ⟨s', taken, sums'⟩ := sums.absorbBatch Accumulator.merge
    (fieldOf_output sound.grouped sends) goes fun a member acc holds => by
      obtain ⟨slots, holds', column⟩ := columnByName_output sound.reads sound.clear sends member
      exact Aggregate.merge_holds holds goes.begins goes.distinct (absent a) goes.known
        (by rw [keys, List.length_map]) (filled a) holds' column
  refine ⟨s', taken, sums'.congr fun a _ k _ => ?_⟩
  -- the rows of the partial result are a tally of the worker's rows
  have rows : (keysOf groupByFields sent).zip ((distinctKeys groupByFields batches).map
      fun k => Aggregate.groupValues groupByFields batches k a) =
      tally (batches.flatMap (Aggregate.keyedRows groupByFields a)) := by
    rw [keys, tally, Aggregate.keys_keyedRows sound.grouped hasHere, ← List.zip_map',
      List.map_id']
    rfl
  rw [rows, flatten_entriesOf_tally, Aggregate.groupValues_append]
  rfl

/-- **The results of all workers are merged**, one after the other. -/
theorem Sums.takePartials {before : List RecordBatch} {workers : List (List RecordBatch)}
    {sent : List RecordBatch} (sums : s.Merged aggregates groupByFields before)
    (sound : Sound aggregates groupByFields fields)
    (has : ∀ b ∈ before ++ workers.flatten, b.fields = fields)
    (few : (distinctKeys groupByFields (before ++ workers.flatten)).length ≤ maxGroups)
    (sends : List.Forall₂ (PartialOf aggregates groupByFields) workers sent) :
    ∃ s', s.takeBatches Accumulator.merge sent = .ok s' ∧
      s'.Merged aggregates groupByFields (before ++ workers.flatten) := by
  induction sends generalizing before s with
  | nil => exact ⟨s, rfl, by simpa using sums⟩
  | @cons batches sent workers rest here _ ih =>
      rw [List.flatten_cons, ← List.append_assoc] at has few ⊢
      have fewer : (distinctKeys groupByFields (before ++ batches)).length ≤ maxGroups := by
        rw [distinctKeys, List.flatMap_append] at few
        exact (eraseDups_prefix_append _ _).length_le.trans few
      obtain ⟨next, taken, sums'⟩ :=
        sums.takePartial sound (fun b inside => has b (List.mem_append_left _ inside)) fewer here
      obtain ⟨s', later, sums''⟩ := ih sums' has few
      refine ⟨s', ?_, sums''⟩
      rw [takeBatches, taken]
      exact later

/-- **The rows of an aggregation.** Over any workers with any batches, in any order of
arrival: the final aggregation makes a batch with a row for each of the distinct keys, and with
the slots that the values of all rows amount to. -/
theorem aggregate_rows (sound : Sound aggregates groupByFields fields)
    {workers : List (List RecordBatch)} {sent : List RecordBatch}
    (has : ∀ b ∈ workers.flatten, b.fields = fields)
    (few : (distinctKeys groupByFields workers.flatten).length ≤ maxGroups)
    (sends : List.Forall₂ (PartialOf aggregates groupByFields) workers sent) :
    ∃ s out, (MergeAggregateExec.new (aggregates.map (Aggregate.accumulator false))
        groupByFields).consume (sent.map .ok) = .ok s ∧
      s.Merged aggregates groupByFields workers.flatten ∧ s.finish.1 = .ok out ∧
      Output false aggregates groupByFields (resultKeys groupByFields workers.flatten)
        (fun a k => Aggregate.groupValues groupByFields workers.flatten k a) out := by
  obtain ⟨s, taken, sums⟩ := (sums_merge aggregates groupByFields).takePartials sound has few sends
  have typed : ∀ key ∈ resultKeys groupByFields workers.flatten, KeyTyped groupByFields key := by
    intro key member
    rw [resultKeys] at member
    split at member
    · rename_i whole
      rw [List.mem_singleton.mp member, whole]
      rfl
    · exact (keys_typed sound.grouped has key member).1
  obtain ⟨out, made, _, output⟩ := sums.finish sound.some typed
  exact ⟨s, out, (consume_eq_takeBatches _ _).trans taken, sums, made, output⟩

end AggregateExec

end TinyOlap.Execution
