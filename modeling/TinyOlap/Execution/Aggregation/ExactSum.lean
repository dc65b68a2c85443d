import TinyOlap.Execution.Aggregation.ParallelResult

/-!
# Exact sums

A sum is kept in 64 bits, whatever the type of its column, and wraps. A column type of fewer
bits leaves room for as many rows as a table can have; one of 64 bits does not, and nothing
tells a wrapped sum from an exact one. The sums of a result are exact if and only if they fit
(`sums_exact_iff`).
-/

set_option autoImplicit false

namespace TinyOlap.Execution

open Library Library.WorkPool Catalog Arrow

namespace Aggregate

/-! ## Cells -/

/-- The cell of a sum is the exact sum of the values. -/
def SumExact (values : List Value) : Aggregate → Value → Prop
  | sum t _, v => ∃ s : (NumericType.int t).widened.Native,
      v = ⟨.data (NumericType.int t).widened.dataType, s⟩ ∧ s.val = (values.map cellInt).sum
  | _, _ => True

/-- The exact sum of the values has 64 bits. -/
def SumFits (values : List Value) : Aggregate → Prop
  | sum t _ => minVal t.signed 63 ≤ (values.map cellInt).sum ∧
      (values.map cellInt).sum ≤ maxVal t.signed 63
  | _ => True

/-- A sum is in the range of its type. -/
theorem widened_range (t : IntType) (s : (NumericType.int t).widened.Native) :
    minVal t.signed 63 ≤ s.val ∧ s.val ≤ maxVal t.signed 63 := by
  cases t <;> exact ⟨s.lower, s.upper⟩

/-- An exact sum fits. -/
theorem SumExact.fits {values : List Value} {a : Aggregate} {v : Value}
    (exact' : a.SumExact values v) : a.SumFits values := by
  cases a with
  | sum t c =>
      obtain ⟨s, _, same⟩ := exact'
      rw [SumFits, ← same]
      exact widened_range t s
  | _ => trivial

/-- A sum that fits is exact: the cell is the only value of the type that is congruent. -/
theorem Describes.sumExact {values : List Value} {a : Aggregate} {v : Value}
    (describes : a.Describes values v) (fits : a.SumFits values) : a.SumExact values v := by
  cases a with
  | sum t c =>
      obtain ⟨s, rfl, congruent⟩ := describes
      obtain ⟨lower, upper⟩ := widened_range t s
      obtain ⟨lower', upper'⟩ := fits
      refine ⟨s, rfl, ?_⟩
      rw [MachineInt.maxVal_eq] at upper upper'
      have narrow : modulus 63 = 2 ^ 64 := rfl
      obtain ⟨k, multiple⟩ := congruent.dvd
      omega
  | _ => trivial

/-- A sum is one of integers of at most 32 bits. -/
def Narrow : Aggregate → Prop
  | sum t _ => t.top ≤ 31
  | _ => True

/-- **Sums of narrow types fit**: those of up to 32 bits, for fewer than `2 ^ 31` rows. -/
theorem sumFits_of_narrow {a : Aggregate} (narrow : a.Narrow) {values : List Value}
    (ranged : ∀ t ∈ a.intType, Ranged t values) (few : values.length < 2 ^ 31) :
    a.SumFits values := by
  cases a with
  | sum t c =>
      have narrow : t.top ≤ 31 := narrow
      have least : ∀ n ∈ values.map cellInt, minVal t.signed 31 ≤ n := by
        intro n member
        obtain ⟨v, inside, rfl⟩ := List.mem_map.mp member
        obtain ⟨w, rfl⟩ := ranged t rfl v inside
        refine le_trans ?_ w.lower
        cases t <;> first | decide | exact absurd narrow (by decide)
      have greatest : ∀ n ∈ values.map cellInt, n ≤ 2 ^ 32 - 1 := by
        intro n member
        obtain ⟨v, inside, rfl⟩ := List.mem_map.mp member
        obtain ⟨w, rfl⟩ := ranged t rfl v inside
        refine w.upper.trans ?_
        cases t <;> first | decide | exact absurd narrow (by decide)
      have lower := List.card_nsmul_le_sum (values.map cellInt) _ least
      have upper := List.sum_le_card_nsmul (values.map cellInt) _ greatest
      rw [nsmul_eq_mul, List.length_map] at lower upper
      show minVal t.signed 63 ≤ (values.map cellInt).sum ∧
        (values.map cellInt).sum ≤ maxVal t.signed 63
      cases sign : t.signed <;> simp [minVal, maxVal, sign] at lower ⊢ <;> omega
  | _ => trivial

/-- A group has no more values than there are rows. -/
theorem length_groupValues_le {groupByFields fields : List Field} {batches : List RecordBatch}
    (grouped : ∀ f ∈ groupByFields, Accumulator.FieldOf fields f.name f.dataType)
    (has : ∀ b ∈ batches, b.fields = fields) (key : GroupKey) (a : Aggregate) :
    (groupValues groupByFields batches key a).length ≤
      (batches.flatMap (keysOf groupByFields)).length := by
  rw [groupValues, ← keys_keyedRows (a := a) grouped has, List.length_map]
  exact List.length_filterMap_le _ _

end Aggregate

namespace AggregateExec

variable {aggregates : List Aggregate} {groupByFields fields : List Field}

/-! ## Results -/

/-- Each row has a key. -/
theorem length_keys
    (grouped : ∀ f ∈ groupByFields, Accumulator.FieldOf fields f.name f.dataType)
    {batches : List RecordBatch} (has : ∀ b ∈ batches, b.fields = fields) :
    (batches.flatMap (keysOf groupByFields)).length = (batches.map RecordBatch.numRows).sum := by
  rw [List.length_flatMap]
  exact congrArg List.sum
    (List.map_congr_left fun b member => keysOf_length grouped (has b member))

/-- There are no more keys than rows. -/
theorem length_distinctKeys_le
    (grouped : ∀ f ∈ groupByFields, Accumulator.FieldOf fields f.name f.dataType)
    {batches : List RecordBatch} (has : ∀ b ∈ batches, b.fields = fields) :
    (distinctKeys groupByFields batches).length ≤ (batches.map RecordBatch.numRows).sum := by
  rw [← length_keys grouped has]
  exact length_eraseDups_le _

/-- **Sums are exact if and only if they fit.** Over fewer than `2 ^ 31` rows, spread in any way
over batches and workers, all sums in the result are exact, whatever the order of arrival, if
and only if the exact sum of every group has 64 bits. This is so if no sum is one of integers of
more than 32 bits. -/
theorem sums_exact_iff (aggregates : List Aggregate) (groupByFields fields : List Field)
    (sound : Sound aggregates groupByFields fields) (workers : List (List RecordBatch))
    (filled : ∀ b ∈ workers.flatten, HasRows fields b)
    (rows : (workers.flatten.map RecordBatch.numRows).sum < 2 ^ 31) :
    ∃ partials, List.Forall₂ (fun batches sent =>
        workerResult aggregates groupByFields batches = some [.ok sent]) workers partials ∧
      (∀ arrived, List.Perm arrived partials →
        ∃ out, MergeAggregateExec.nextBatch (mergeStart aggregates groupByFields)
          (arrived.map .ok) = .ok out) ∧
      ((∀ arrived, List.Perm arrived partials → ∀ out,
          MergeAggregateExec.nextBatch (mergeStart aggregates groupByFields) (arrived.map .ok) =
            .ok out →
          ∃ keys, ResultRows (fun a values v => a.SumExact values v) aggregates groupByFields
            workers.flatten keys out.rows) ↔
        ∀ key ∈ resultKeys groupByFields workers.flatten, ∀ a ∈ aggregates,
          a.SumFits (Aggregate.groupValues groupByFields workers.flatten key a)) ∧
      ((∀ a ∈ aggregates, a.Narrow) →
        ∀ key ∈ resultKeys groupByFields workers.flatten, ∀ a ∈ aggregates,
          a.SumFits (Aggregate.groupValues groupByFields workers.flatten key a)) := by
  have has : ∀ b ∈ workers.flatten, b.fields = fields := fun b member => (filled b member).1
  have few : (distinctKeys groupByFields workers.flatten).length ≤ maxGroups :=
    (length_distinctKeys_le sound.grouped has).trans (rows.le.trans (by decide))
  obtain ⟨partials, sends, each⟩ := exists_result sound filled few
  refine ⟨partials, sends, fun arrived order => ?_, ⟨fun exacts => ?_,
    fun fits arrived order out made => ?_⟩, fun narrow key _ a inside => ?_⟩
  · obtain ⟨_, out, _, _, made, _⟩ := each arrived order
    exact ⟨out, made⟩
  · obtain ⟨_, out, _, _, made, _⟩ := each partials (.refl _)
    obtain ⟨keys, same, described⟩ := exacts partials (.refl _) out made
    intro key member a inside
    obtain ⟨row, _, cells, _, cellwise⟩ := exists_of_mem_left described (same.mem_iff.mpr member)
    obtain ⟨v, _, exact'⟩ := exists_of_mem_left cellwise inside
    exact exact'.fits
  · obtain ⟨_, out', keys, _, made', ⟨same, described⟩, _⟩ := each arrived order
    cases made.symm.trans made'
    refine ⟨keys, same, ?_⟩
    refine ((List.forall₂_and_left keys _).mpr ⟨fun key member => member, described⟩).imp ?_
    rintro key row ⟨listed, cells, split, cellwise⟩
    refine ⟨cells, split, ?_⟩
    refine ((List.forall₂_and_left aggregates _).mpr ⟨fun a member => member, cellwise⟩).imp ?_
    rintro a v ⟨inside, describes⟩
    exact describes.sumExact (fits key (same.mem_iff.mp listed) a inside)
  · refine Aggregate.sumFits_of_narrow (narrow a inside)
      (Aggregate.ranged_groupValues (sound.reads a inside) has key) ?_
    have short := Aggregate.length_groupValues_le sound.grouped has key a
    rw [length_keys sound.grouped has] at short
    exact short.trans_lt rows

/-- A batch of one column of signed numbers. -/
def columnBatch (name : String) (values : List I64) : RecordBatch where
  fields := [⟨name, .data (.int .i64)⟩]
  columns := [⟨.data (.int .i64), values⟩]
  numRows := values.length
  typed := rfl
  lengths a member := by
    rw [List.mem_singleton.mp member]
    rfl

abbrev i64 (n : Int) : I64 := MachineInt.wrap true 63 n

/-- Two workers with a row each, and a sum that fits. -/
theorem sums_exact_small : ∃ partials,
    List.Forall₂ (fun batches sent => workerResult [.sum .i64 "a"] [] batches = some [.ok sent])
      [[columnBatch "a" [i64 3]], [columnBatch "a" [i64 (-4)]]] partials ∧
    ∀ arrived, List.Perm arrived partials → ∀ out,
      MergeAggregateExec.nextBatch (mergeStart [.sum .i64 "a"] []) (arrived.map .ok) = .ok out →
      ∃ keys, ResultRows (fun a values v => a.SumExact values v) [.sum .i64 "a"] []
        [columnBatch "a" [i64 3], columnBatch "a" [i64 (-4)]] keys out.rows := by
  obtain ⟨partials, sends, _, exacts, _⟩ := sums_exact_iff [.sum .i64 "a"] []
    [⟨"a", .data (.int .i64)⟩] ⟨by simp, by
      simp [Aggregate.ReadsFrom, Aggregate.accumulator, Accumulator.ReadsFrom,
        Accumulator.FieldOf], by simp, by simp⟩
    [[columnBatch "a" [i64 3]], [columnBatch "a" [i64 (-4)]]] (by simp [HasRows, columnBatch])
    (by decide)
  refine ⟨partials, sends, exacts.mpr fun key member a inside => ?_⟩
  rw [List.mem_singleton.mp inside, List.mem_singleton.mp member]
  exact ⟨by decide, by decide⟩

/-- **A sum wraps**: the greatest number and one are the least. -/
theorem sum_wraps : ∃ sent out,
    workerResult [.sum .i64 "a"] [] [columnBatch "a" [i64 (2 ^ 63 - 1), i64 1]] =
      some [.ok sent] ∧
    MergeAggregateExec.nextBatch (mergeStart [.sum .i64 "a"] []) [.ok sent] = .ok out ∧
    out.rows = [[⟨.data (.int .i64), i64 (-(2 ^ 63))⟩]] ∧
    ∀ keys, ¬ ResultRows (fun a values v => a.SumExact values v) [.sum .i64 "a"] []
      [columnBatch "a" [i64 (2 ^ 63 - 1), i64 1]] keys out.rows := by
  refine ⟨_, _, rfl, rfl, by decide, fun keys rows => ?_⟩
  obtain rfl : keys = [[]] := List.perm_singleton.mp rows.1
  obtain ⟨cells, _, described⟩ := (List.forall₂_cons.mp rows.2).1
  obtain ⟨v, _, exact', _⟩ := List.forall₂_cons_left_iff.mp described
  obtain ⟨_, upper⟩ := exact'.fits
  revert upper
  decide

end AggregateExec

end TinyOlap.Execution
