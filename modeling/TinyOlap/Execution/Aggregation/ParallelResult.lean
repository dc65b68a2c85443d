import TinyOlap.Execution.Aggregation.AggregateResult
import Mathlib.Data.List.Perm.Basic

/-!
# Parallel aggregation

What the workers' results are merged to is what the rows of all workers amount to, group by
group: their number, their sum, the least and the greatest value (`parallel_aggregation`).
Neither the batches, nor the workers, nor the order in which the results arrive matter. There
is one thing that the final aggregation cannot tell: it finds the slots of an aggregate under
the name of its output, and takes a group column for them that has this name. And it has no
index for a group after the first `2 ^ 32` (`workerResult_eq_none`).
-/

set_option autoImplicit false

namespace TinyOlap.Execution

open Library Library.WorkPool Catalog Arrow

namespace Aggregate

/-! ## Cells -/

/-- What the cell of an aggregate says about the values of a group. A sum of floats is one of
their totals, added up in some order; so is what an average is made of. The least and the
greatest of floats are that if there is no NaN among them. -/
def Describes (values : List Value) : Aggregate → Value → Prop
  | count _, v => ∃ n : U64, v = ⟨.data (.int .u64), n⟩ ∧ n.val = values.length % 2 ^ 64
  | sum t _, v => ∃ s : (NumericType.int t).widened.Native,
      v = ⟨.data (NumericType.int t).widened.dataType, s⟩ ∧
      s.val ≡ (values.map cellInt).sum [ZMOD 2 ^ 64]
  | min t _, v => ∃ m : t.Native, v = ⟨.data (.int t), m⟩ ∧
      (values ≠ [] → m.val ∈ values.map cellInt ∧ ∀ w ∈ values.map cellInt, m.val ≤ w)
  | max t _, v => ∃ m : t.Native, v = ⟨.data (.int t), m⟩ ∧
      (values ≠ [] → m.val ∈ values.map cellInt ∧ ∀ w ∈ values.map cellInt, w ≤ m.val)
  | avg _, v => ∃ (total : F64) (n : U64),
      v = ⟨.data .f64, Ieee.div total (Ieee.ofInt 11 52 n.val)⟩ ∧
      TotalOf Ieee.add (Ieee.make 11 52 false 0) (values.map cellF64) total ∧
      n.val = values.length % 2 ^ 64
  | float .sum double _, v => ∃ s : (floatType double).widened.Native,
      v = ⟨.data (floatType double).widened.dataType, s⟩ ∧ Sum (floatType double) values s
  | float .min double _, v => ∃ m : (floatType double).Native,
      v = ⟨.data (floatType double).dataType, m⟩ ∧
      (values ≠ [] → m ∈ natives (floatType double) values ∧
        ((∀ w ∈ natives (floatType double) values, (floatType double).isNumber w = true) →
          ∀ w ∈ natives (floatType double) values, (floatType double).lt w m = false))
  | float .max double _, v => ∃ m : (floatType double).Native,
      v = ⟨.data (floatType double).dataType, m⟩ ∧
      (values ≠ [] → m ∈ natives (floatType double) values ∧
        ((∀ w ∈ natives (floatType double) values, (floatType double).isNumber w = true) →
          ∀ w ∈ natives (floatType double) values, (floatType double).lt m w = false))

/-- The order of the values does not matter. -/
theorem Describes.perm {values values' : List Value} {a : Aggregate} {v : Value}
    (describes : a.Describes values v) (same : values.Perm values') : a.Describes values' v := by
  have some : values' ≠ [] → values ≠ [] := fun filled none => filled (by simpa [none] using same)
  have ints : ∀ n, n ∈ values'.map cellInt ↔ n ∈ values.map cellInt :=
    fun n => (same.map cellInt).symm.mem_iff
  have cells : ∀ {t : NumericType} (w : t.Native), w ∈ natives t values' ↔ w ∈ natives t values :=
    fun {t} w => (same.map (nativeOf t)).symm.mem_iff
  cases a with
  | count c =>
      obtain ⟨n, rfl, counts⟩ := describes
      exact ⟨n, rfl, same.length_eq ▸ counts⟩
  | sum t c =>
      obtain ⟨s, rfl, sums⟩ := describes
      exact ⟨s, rfl, (same.map cellInt).sum_eq ▸ sums⟩
  | min t c =>
      obtain ⟨m, rfl, least⟩ := describes
      refine ⟨m, rfl, fun filled => ?_⟩
      simp only [ints]
      exact least (some filled)
  | max t c =>
      obtain ⟨m, rfl, greatest⟩ := describes
      refine ⟨m, rfl, fun filled => ?_⟩
      simp only [ints]
      exact greatest (some filled)
  | avg c =>
      obtain ⟨total, n, rfl, adds, counts⟩ := describes
      exact ⟨total, n, rfl, adds.perm (same.map cellF64), same.length_eq ▸ counts⟩
  | float function double c =>
      cases function with
      | sum =>
          obtain ⟨s, rfl, sums⟩ := describes
          exact ⟨s, rfl, TotalOf.perm sums ((same.map _).map _)⟩
      | min =>
          obtain ⟨m, rfl, least⟩ := describes
          refine ⟨m, rfl, fun filled => ?_⟩
          simp only [cells]
          exact least (some filled)
      | max =>
          obtain ⟨m, rfl, greatest⟩ := describes
          refine ⟨m, rfl, fun filled => ?_⟩
          simp only [cells]
          exact greatest (some filled)

theorem countOf_val (values : List Value) : (countOf values).val = values.length % 2 ^ 64 := by
  show ((values.length : Int) - 0) % modulus 63 + 0 = _
  rw [Int.sub_zero, Int.add_zero]
  rfl

theorem sumOf_val (t : IntType) (values : List Value) :
    (sumOf t values).val ≡ (values.map cellInt).sum [ZMOD 2 ^ 64] := by
  cases t <;> exact MachineInt.wrap_val_emod _

/-- The values are values of the type. -/
def Ranged (t : IntType) (values : List Value) : Prop :=
  ∀ v ∈ values, ∃ w : t.Native, v = ⟨.data (.int t), w⟩

theorem Ranged.natives_val {t : IntType} {values : List Value} (ranged : Ranged t values) :
    (natives (.int t) values).map (fun w => w.val) = values.map cellInt := by
  rw [natives, List.map_map]
  refine List.map_congr_left fun v member => ?_
  obtain ⟨w, rfl⟩ := ranged v member
  exact congrArg MachineInt.val (nativeOf_mk (.int t) w)

/-- The best of some values is one of them, and none is better. -/
theorem Ranged.best {t : IntType} {values : List Value} (ranged : Ranged t values)
    (filled : values ≠ []) {better : t.Native → t.Native → Bool} {key : t.Native → Int}
    (order : ∀ a b, better a b = decide (key a < key b)) (default : t.Native) :
    (((natives (.int t) values).foldl (track better) none).getD default).val ∈
        values.map cellInt ∧
      ∀ v ∈ values.map cellInt, ∃ w : t.Native, w.val = v ∧
        key (((natives (.int t) values).foldl (track better) none).getD default) ≤ key w := by
  have some : natives (.int t) values ≠ [] := fun none => filled (List.map_eq_nil_iff.mp none)
  have found : ∃ b, (natives (.int t) values).foldl (track better) none = .some b := by
    cases listed : natives (.int t) values with
    | nil => exact (some listed).elim
    | cons v rest =>
        obtain ⟨b, run, _⟩ := foldl_track_some order rest v
        exact ⟨b, run⟩
  obtain ⟨b, run⟩ := found
  obtain ⟨member, best⟩ := foldl_track order run
  rw [run, Option.getD_some]
  have vals := ranged.natives_val
  refine ⟨vals ▸ List.mem_map_of_mem member, fun v inside => ?_⟩
  rw [← vals] at inside
  obtain ⟨w, listed, rfl⟩ := List.mem_map.mp inside
  exact ⟨w, rfl, best w listed⟩

/-- What is kept of some values is one of them, and the best if all are numbers. -/
theorem kept_getD {t : NumericType} {key : t.Native → Int} {values : List Value}
    {o : Option t.Native} (kept : Kept t.isNumber key (natives t values) o)
    (filled : values ≠ []) :
    o.getD t.zero ∈ natives t values ∧
      ((∀ w ∈ natives t values, t.isNumber w = true) →
        ∀ w ∈ natives t values, key (o.getD t.zero) ≤ key w) := by
  cases o with
  | none => exact (filled (List.map_eq_nil_iff.mp kept)).elim
  | some b => exact kept

/-- The type of the integers that are added or compared. -/
def intType : Aggregate → Option IntType
  | sum t _ | min t _ | max t _ => some t
  | _ => none

/-- Only an average has the slots of one. -/
theorem Holds.avg_slots {a : Aggregate} {groups : List (List Value)} {c : String}
    {slots : List (F64 × U64)} (holds : a.Holds false groups (.avg c slots false)) :
    a = .avg c ∧ List.Forall₂ Mean groups slots := by
  cases a with
  | avg c' =>
      obtain ⟨slots', same, means⟩ := holds
      cases same
      exact ⟨rfl, means⟩
  | float function double c' =>
      cases function <;> obtain ⟨_, same, _⟩ := holds <;> cases same
  | count c' => cases holds
  | sum t c' => cases holds
  | min t c' => cases holds
  | max t c' => cases holds

theorem forall₂_cells {α : Type} {t : ArrowType} {f : α → t.Native} {R : α → Value → Prop}
    {l : List α} (each : ∀ a ∈ l, R a ⟨t, f a⟩) :
    List.Forall₂ R l (ArrayRef.mk t (l.map f)).cells := by
  rw [ArrayRef.cells, List.map_map, List.forall₂_map_right_iff, List.forall₂_same]
  exact each

/-- **The cells of an accumulator** describe the groups. -/
theorem Holds.cells {a : Aggregate} {groups : List (List Value)} {acc : Accumulator}
    (holds : a.Holds false groups acc)
    (ranged : ∀ t ∈ a.intType, ∀ values ∈ groups, Ranged t values) :
    List.Forall₂ (fun values v => a.Describes values v) groups acc.materialize.cells := by
  cases a with
  | count c =>
      subst holds
      exact @forall₂_cells _ (.data (.int .u64)) countOf _ _
        fun values _ => ⟨_, rfl, countOf_val values⟩
  | sum t c =>
      subst holds
      exact @forall₂_cells _ (.data (NumericType.int t).widened.dataType) (sumOf t) _ _
        fun values _ => ⟨_, rfl, sumOf_val t values⟩
  | min t c =>
      subst holds
      have slots : (Accumulator.min (.int t) c (.ofOptions (groups.map (leastOf t)))).materialize =
          ⟨.data (.int t), groups.map fun values => (leastOf t values).getD
            (NumericType.int t).zero⟩ :=
        congrArg (ArrayRef.mk (.data (.int t))) List.map_map
      rw [slots]
      refine forall₂_cells fun values member => ⟨_, rfl, fun filled => ?_⟩
      obtain ⟨inside, best⟩ := (ranged t rfl values member).best filled (less_order t)
        (NumericType.int t).zero
      refine ⟨inside, fun w here => ?_⟩
      obtain ⟨w, rfl, below⟩ := best w here
      exact below
  | max t c =>
      subst holds
      have slots :
          (Accumulator.max (.int t) c (.ofOptions (groups.map (greatestOf t)))).materialize =
          ⟨.data (.int t), groups.map fun values => (greatestOf t values).getD
            (NumericType.int t).zero⟩ :=
        congrArg (ArrayRef.mk (.data (.int t))) List.map_map
      rw [slots]
      refine forall₂_cells fun values member => ⟨_, rfl, fun filled => ?_⟩
      obtain ⟨inside, best⟩ := (ranged t rfl values member).best filled (greater_order t)
        (NumericType.int t).zero
      refine ⟨inside, fun w here => ?_⟩
      obtain ⟨w, rfl, above⟩ := best w here
      exact neg_le_neg_iff.mp above
  | avg c =>
      obtain ⟨slots, rfl, means⟩ := holds
      show List.Forall₂ _ groups (ArrayRef.mk (.data .f64) (slots.map _)).cells
      rw [ArrayRef.cells, List.map_map, List.forall₂_map_right_iff]
      refine means.imp fun values slot mean => ?_
      exact ⟨slot.1, slot.2, rfl, mean.1, mean.2 ▸ countOf_val values⟩
  | float function double c =>
      cases function with
      | sum =>
          obtain ⟨sums, rfl, amounts⟩ := holds
          show List.Forall₂ _ groups
            (ArrayRef.mk (.data (floatType double).widened.dataType) sums).cells
          rw [ArrayRef.cells, List.forall₂_map_right_iff]
          exact amounts.imp fun values s sum => ⟨s, rfl, sum⟩
      | min =>
          obtain ⟨opts, rfl, kept⟩ := holds
          show List.Forall₂ _ groups (ArrayRef.mk (.data (floatType double).dataType)
            (opts.map _)).cells
          rw [ArrayRef.cells, List.map_map, List.forall₂_map_right_iff]
          refine kept.imp fun values o least => ⟨_, rfl, fun filled => ?_⟩
          obtain ⟨member, best⟩ := kept_getD least filled
          refine ⟨member, fun numbers w inside => ?_⟩
          rw [NumericType.lt_eq, decide_eq_false (not_lt.mpr (best numbers w inside)),
            Bool.and_false]
      | max =>
          obtain ⟨opts, rfl, kept⟩ := holds
          show List.Forall₂ _ groups (ArrayRef.mk (.data (floatType double).dataType)
            (opts.map _)).cells
          rw [ArrayRef.cells, List.map_map, List.forall₂_map_right_iff]
          refine kept.imp fun values o greatest => ⟨_, rfl, fun filled => ?_⟩
          obtain ⟨member, best⟩ := kept_getD greatest filled
          refine ⟨member, fun numbers w inside => ?_⟩
          rw [NumericType.lt_eq,
            decide_eq_false (not_lt.mpr (neg_le_neg_iff.mp (best numbers w inside))),
            Bool.and_false]

/-- The values of an integer column are values of its type. -/
theorem ranged_groupValues {groupByFields fields : List Field} {a : Aggregate}
    {batches : List RecordBatch} (reads : a.ReadsFrom fields)
    (has : ∀ b ∈ batches, b.fields = fields) (key : GroupKey) :
    ∀ t ∈ a.intType, Ranged t (groupValues groupByFields batches key a) := by
  intro t compared v member
  have field : Accumulator.FieldOf fields a.columnName (.data (.int t)) := by
    refine @ReadsFrom.fieldOf a fields (.int t) reads ?_
    cases a <;> cases compared <;> rfl
  obtain ⟨batch, inside, row⟩ := List.mem_flatMap.mp (mem_entriesOf.mp member)
  obtain ⟨values, column, _⟩ := field.column (has batch inside)
  have listed := (List.of_mem_zip row).2
  rw [cellsOf_eq column] at listed
  obtain ⟨w, _, same⟩ := List.mem_map.mp listed
  exact ⟨w, same.symm⟩

end Aggregate

/-! ## Rows -/

/-- The rows of a result: one for each distinct key, with the key and a cell for each aggregate
that stands in this relation to the values of the group. -/
def ResultRows (D : Aggregate → List Value → Value → Prop) (aggregates : List Aggregate)
    (groupByFields : List Field) (batches : List RecordBatch) (keys : List GroupKey)
    (rows : List (List Value)) : Prop :=
  keys.Perm (AggregateExec.resultKeys groupByFields batches) ∧
  List.Forall₂ (fun key row => ∃ cells, row = key ++ cells ∧
    List.Forall₂ (fun a v => D a (Aggregate.groupValues groupByFields batches key a) v) aggregates
      cells) keys rows

namespace AggregateExec

variable {aggregates : List Aggregate} {groupByFields fields : List Field}
  {keys : List GroupKey} {values : Aggregate → GroupKey → List Value} {out : RecordBatch}

/-- The cells of all accumulators, group by group. -/
theorem forall₂_rowsOf {accumulators : List Accumulator}
    (slots : List.Forall₂ (fun a acc => a.Holds false (keys.map (values a)) acc) aggregates
      accumulators)
    (ranged : ∀ a ∈ aggregates, ∀ key, ∀ t ∈ a.intType, Aggregate.Ranged t (values a key)) :
    List.Forall₂ (fun key row =>
        List.Forall₂ (fun a v => a.Describes (values a key) v) aggregates row) keys
      (RecordBatch.rowsOf keys.length (accumulators.map Accumulator.materialize)) := by
  induction slots with
  | nil =>
      rw [List.map_nil, RecordBatch.rowsOf, List.forall₂_iff_zip, List.length_replicate]
      refine ⟨rfl, fun inside => ?_⟩
      rw [(List.mem_replicate.mp (List.of_mem_zip inside).2).2]
      exact .nil
  | @cons a acc aggregates accumulators holds _ ih =>
      have here := holds.cells fun t compared vs member => by
        obtain ⟨key, _, rfl⟩ := List.mem_map.mp member
        exact ranged a (by simp) key t compared
      rw [List.forall₂_map_left_iff] at here
      rw [List.map_cons, RecordBatch.rowsOf]
      exact forall₂_zipWith here (ih fun b member => ranged b (by simp [member]))
        fun key v row describes later => .cons describes later

/-- **The rows of the output** describe the groups. -/
theorem Output.rows_describe (output : Output false aggregates groupByFields keys values out)
    (ranged : ∀ a ∈ aggregates, ∀ key, ∀ t ∈ a.intType, Aggregate.Ranged t (values a key)) :
    List.Forall₂ (fun key row => ∃ cells, row = key ++ cells ∧
      List.Forall₂ (fun a v => a.Describes (values a key) v) aggregates cells) keys out.rows := by
  obtain ⟨arrays, accumulators, columns, _, listed, slots⟩ := output.columns
  have lengths := out.lengths
  rw [output.rows, columns] at lengths
  have cells := forall₂_rowsOf slots ranged
  rw [RecordBatch.rows, output.rows, columns, RecordBatch.rowsOf_append
    (fun a member => lengths a (List.mem_append_left _ member))
    (fun a member => lengths a (List.mem_append_right _ member)), listed]
  exact forall₂_zipWith (List.forall₂_same.mpr fun key _ => rfl) cells
    fun key key' row same described => ⟨row, same ▸ rfl, described⟩

/-! ## The order of arrival -/

variable {batches batches' : List RecordBatch}

theorem distinctKeys_perm (same : batches.Perm batches') :
    (distinctKeys groupByFields batches).Perm (distinctKeys groupByFields batches') := by
  refine (List.perm_ext_iff_of_nodup (nodup_eraseDups _) (nodup_eraseDups _)).mpr fun key => ?_
  rw [List.mem_eraseDups, List.mem_eraseDups]
  exact (same.flatMap_right _).mem_iff

theorem resultKeys_perm (same : batches.Perm batches') :
    (resultKeys groupByFields batches).Perm (resultKeys groupByFields batches') := by
  unfold resultKeys
  split
  · exact .refl _
  · exact distinctKeys_perm same

theorem groupValues_perm (same : batches.Perm batches') (key : GroupKey) (a : Aggregate) :
    (Aggregate.groupValues groupByFields batches key a).Perm
      (Aggregate.groupValues groupByFields batches' key a) :=
  entriesOf_perm (same.flatMap_right _) key

/-- The rows of a result do not depend on the order of the batches. -/
theorem resultRows_perm {rows : List (List Value)}
    (result : ResultRows (fun a values v => a.Describes values v) aggregates groupByFields batches
      keys rows) (same : batches.Perm batches') :
    ResultRows (fun a values v => a.Describes values v) aggregates groupByFields batches' keys
      rows := by
  refine ⟨result.1.trans (resultKeys_perm same), result.2.imp ?_⟩
  rintro key row ⟨cells, split, described⟩
  exact ⟨cells, split, described.imp fun a v describes =>
    describes.perm (groupValues_perm same key a)⟩

/-- A worker's own result. -/
def workerResult (aggregates : List Aggregate) (groupByFields : List Field)
    (batches : List RecordBatch) : Option (List BatchResult) :=
  hashAggregateExec.result (HashAggregateExec.new
    (aggregates.map (Aggregate.accumulator true)) groupByFields) (batches.map .ok)

/-- The final aggregation as it is built. -/
abbrev mergeStart (aggregates : List Aggregate) (groupByFields : List Field) : AggregateExec :=
  MergeAggregateExec.new (aggregates.map (Aggregate.accumulator false)) groupByFields

/-- In whatever order the results of the workers arrive, the final aggregation returns the rows
that describe all groups. -/
theorem result_of_arrived (sound : Sound aggregates groupByFields fields)
    {workers : List (List RecordBatch)} {partials arrived : List RecordBatch}
    (has : ∀ b ∈ workers.flatten, b.fields = fields)
    (few : (distinctKeys groupByFields workers.flatten).length ≤ maxGroups)
    (sends : List.Forall₂ (PartialOf aggregates groupByFields) workers partials)
    (order : arrived.Perm partials) : ∃ s out keys,
      (mergeStart aggregates groupByFields).consume (arrived.map .ok) = .ok s ∧
      s.finish.1 = .ok out ∧
      out.fields = groupByFields ++ aggregates.map (fun a => (a.accumulator false).outputField) ∧
      ResultRows (fun a values v => a.Describes values v) aggregates groupByFields
        workers.flatten keys out.rows ∧
      ∀ c slots, Accumulator.avg c slots false ∈ s.accumulators →
        slots.map (fun slot => slot.2.val) = keys.map fun key =>
          ((Aggregate.groupValues groupByFields workers.flatten key (.avg c)).length : Int) %
            2 ^ 64 := by
  obtain ⟨workers', sends', order'⟩ := List.perm_comp_forall₂ order sends.flip
  have same : workers'.flatten.Perm workers.flatten := order'.flatten
  have has' : ∀ b ∈ workers'.flatten, b.fields = fields :=
    fun b member => has b (same.mem_iff.mp member)
  obtain ⟨s, out, consumed, merged, made, output⟩ := aggregate_rows sound has'
    ((distinctKeys_perm same).length_eq ▸ few) sends'.flip
  refine ⟨s, out, resultKeys groupByFields workers'.flatten, consumed, made, output.fields,
    resultRows_perm ⟨.refl _, ?_⟩ same, fun c slots member => ?_⟩
  · exact output.rows_describe fun a member key =>
      Aggregate.ranged_groupValues (sound.reads a member) has' key
  · obtain ⟨a, _, holds⟩ := exists_of_mem_right merged.slots member
    obtain ⟨rfl, means⟩ := holds.avg_slots
    rw [List.forall₂_map_left_iff] at means
    refine map_eq_of_forall₂ (means.imp fun key slot mean => ?_)
    simp only [mean.2, Aggregate.countOf_val, (groupValues_perm same key _).length_eq]

/-- Some of the batches have at most as many keys. -/
theorem distinctKeys_length_le {batches more : List RecordBatch} (inside : batches ⊆ more) :
    (distinctKeys groupByFields batches).length ≤ (distinctKeys groupByFields more).length := by
  refine (nodup_eraseDups _).subperm (fun key known => ?_) |>.length_le
  rw [List.mem_eraseDups] at known ⊢
  obtain ⟨b, member, here⟩ := List.mem_flatMap.mp known
  exact List.mem_flatMap.mpr ⟨b, inside member, here⟩

/-- Whatever the workers are given and in whatever order their results arrive, the final
aggregation returns the rows that describe all groups. -/
theorem exists_result (sound : Sound aggregates groupByFields fields)
    {workers : List (List RecordBatch)} (filled : ∀ b ∈ workers.flatten, HasRows fields b)
    (few : (distinctKeys groupByFields workers.flatten).length ≤ maxGroups) :
    ∃ partials, List.Forall₂ (fun batches sent =>
        workerResult aggregates groupByFields batches = some [.ok sent]) workers partials ∧
      ∀ arrived, List.Perm arrived partials → ∃ s out keys,
        (mergeStart aggregates groupByFields).consume (arrived.map .ok) = .ok s ∧
        MergeAggregateExec.nextBatch (mergeStart aggregates groupByFields) (arrived.map .ok) =
          .ok out ∧
        ResultRows (fun a values v => a.Describes values v) aggregates groupByFields
          workers.flatten keys out.rows ∧
        ∀ c slots, Accumulator.avg c slots false ∈ s.accumulators →
          slots.map (fun slot => slot.2.val) = keys.map fun key =>
            ((Aggregate.groupValues groupByFields workers.flatten key (.avg c)).length : Int) %
              2 ^ 64 := by
  have each : ∀ batches ∈ workers, ∃ sent,
      workerResult aggregates groupByFields batches = some [.ok sent] ∧
      PartialOf aggregates groupByFields batches sent := by
    intro batches member
    have inside : batches ⊆ workers.flatten := fun b here =>
      List.mem_flatten.mpr ⟨batches, member, here⟩
    exact exists_sent sound (fun b here => filled b (inside here))
      ((distinctKeys_length_le inside).trans few)
  obtain ⟨partials, sends⟩ := exists_forall₂ each
  refine ⟨partials, sends.imp fun batches sent both => both.1, fun arrived order => ?_⟩
  obtain ⟨s, out, keys, consumed, made, _, rows, counts⟩ := result_of_arrived sound
    (fun b member => (filled b member).1) few (sends.imp fun batches sent both => both.2) order
  refine ⟨s, out, keys, consumed, ?_, rows, counts⟩
  rw [MergeAggregateExec.nextBatch, consumed, Outcome.ok_bind, made]

/-- **Parallel aggregation is sequential aggregation.** Each worker returns one batch for the
batches it is given, which may be none. In whatever order these arrive, the final aggregation
returns one row for each distinct key, or one row if there is no GROUP BY: the cell of a count
is the number of rows of the group and that of a sum their sum, both modulo `2 ^ 64`, the cell
of a minimum is the least and that of a maximum the greatest of their values, and an average is
divided by their number. -/
theorem parallel_aggregation (aggregates : List Aggregate) (groupByFields fields : List Field)
    (sound : Sound aggregates groupByFields fields) (workers : List (List RecordBatch))
    (filled : ∀ b ∈ workers.flatten, HasRows fields b)
    (few : (distinctKeys groupByFields workers.flatten).length ≤ maxGroups) :
    ∃ partials, List.Forall₂ (fun batches sent =>
        workerResult aggregates groupByFields batches = some [.ok sent]) workers partials ∧
      ∀ arrived, List.Perm arrived partials → ∃ s out keys,
        (mergeStart aggregates groupByFields).consume (arrived.map .ok) = .ok s ∧
        MergeAggregateExec.nextBatch (mergeStart aggregates groupByFields) (arrived.map .ok) =
          .ok out ∧
        keys.Nodup ∧
        ResultRows (fun a values v => a.Describes values v) aggregates groupByFields
          workers.flatten keys out.rows ∧
        ∀ c slots, Accumulator.avg c slots false ∈ s.accumulators →
          slots.map (fun slot => slot.2.val) = keys.map fun key =>
            ((Aggregate.groupValues groupByFields workers.flatten key (.avg c)).length : Int) %
              2 ^ 64 := by
  obtain ⟨partials, sends, each⟩ := exists_result sound filled few
  refine ⟨partials, sends, fun arrived order => ?_⟩
  obtain ⟨s, out, keys, consumed, made, rows, counts⟩ := each arrived order
  refine ⟨s, out, keys, consumed, made, ?_, rows, counts⟩
  rw [rows.1.nodup_iff, resultKeys]
  split
  · exact List.nodup_singleton _
  · exact nodup_eraseDups _

/-! ## When the indices run out -/

/-- Whatever is added to a table, its indices have 32 bits, and all keys are in it. -/
theorem mem_assignGroups {groups : GroupTable} (narrow : ∀ entry ∈ groups, entry.2 < maxGroups)
    (ks : List GroupKey) :
    (∀ entry ∈ (assignGroups groups ks).1, entry.2 < maxGroups) ∧
      ∀ k, k ∈ groups.map Prod.fst ∨ k ∈ ks → k ∈ (assignGroups groups ks).1.map Prod.fst := by
  induction ks generalizing groups with
  | nil => exact ⟨narrow, fun k known => known.resolve_right List.not_mem_nil⟩
  | cons key rest ih =>
      have step : (∀ entry ∈ (groupIndex groups key).1, entry.2 < maxGroups) ∧
          ∀ k, k ∈ groups.map Prod.fst ∨ k = key → k ∈ (groupIndex groups key).1.map Prod.fst := by
        unfold groupIndex
        cases known : groups.lookup key with
        | some idx =>
            refine ⟨narrow, fun k which => which.elim id fun same => ?_⟩
            obtain ⟨entry, member, here⟩ : ∃ entry ∈ groups, key = entry.1 := by
              by_contra none
              push Not at none
              rw [List.lookup_eq_none_iff.mpr fun entry member =>
                bne_iff_ne.mpr (none entry member)] at known
              cases known
            rw [same, here]
            exact List.mem_map_of_mem member
        | none =>
            refine ⟨fun entry member => ?_, fun k which => ?_⟩
            · rcases List.mem_append.mp member with earlier | new
              · exact narrow entry earlier
              · rw [List.mem_singleton.mp new]
                exact Nat.mod_lt _ (by decide)
            · rw [List.map_append, List.mem_append]
              exact which.imp id fun same => by simp [same]
      obtain ⟨narrow', listed⟩ := ih step.1
      refine ⟨narrow', fun k which => listed k ?_⟩
      rcases which with before | here
      · exact .inl (step.2 k (.inl before))
      · exact (List.mem_cons.mp here).imp (fun same => step.2 k (.inr same)) id

/-- A table with more entries than there are indices is of no use. -/
theorem groupArrays_ne_ok {s : AggregateExec} (grouping : s.groupByFields ≠ [])
    (narrow : ∀ entry ∈ s.groupToIndex, entry.2 < maxGroups)
    (many : maxGroups < s.groupToIndex.length) (arrays : List ArrayRef) :
    s.groupArrays ≠ .ok arrays := by
  intro made
  rw [groupArrays, if_neg (by simpa using grouping), Outcome.bind_eq_ok] at made
  obtain ⟨ordered, found, _⟩ := made
  obtain ⟨key, _, here⟩ :=
    exists_of_mem_left (Outcome.mapM_eq_ok found) (List.mem_range.mpr many)
  obtain ⟨entry, entryFound, _⟩ := Option.map_eq_some_iff.mp (Outcome.orPanic_eq_ok.mp here)
  have index : entry.2 = maxGroups := by simpa using List.find?_some entryFound
  exact (narrow entry (List.mem_of_find?_eq_some entryFound)).ne index

/-- The keys of the rows are in the table, whose indices have 32 bits. -/
structure Listed (groupByFields : List Field) (ks : List GroupKey) (s : AggregateExec) : Prop where
  fields : s.groupByFields = groupByFields
  going : s.emitted = false
  narrow : ∀ entry ∈ s.groupToIndex, entry.2 < maxGroups
  listed : ∀ k ∈ ks, k ∈ s.groupToIndex.map Prod.fst

theorem Listed.absorbBatch {s : AggregateExec} {ks : List GroupKey} {batch : RecordBatch}
    (absorb : RecordBatch → List Nat → Nat → Accumulator → ExecResult Accumulator)
    (listed : s.Listed groupByFields ks) (grouping : groupByFields ≠ [])
    (grouped : ∀ f ∈ groupByFields, Accumulator.FieldOf batch.fields f.name f.dataType) :
    (s.absorbBatch absorb batch).2.Listed groupByFields (ks ++ keysOf groupByFields batch) := by
  obtain ⟨rfl, going, narrow, before⟩ := listed
  have found : s.groupKeys batch = .ok (keysOf s.groupByFields batch) := groupKeys_eq_ok grouped rfl
  obtain ⟨narrow', known⟩ := mem_assignGroups narrow (keysOf s.groupByFields batch)
  rw [AggregateExec.absorbBatch, if_neg (by simpa using grouping), found]
  exact ⟨rfl, going, narrow', fun k member =>
    known k ((List.mem_append.mp member).imp (before k) id)⟩

theorem Listed.feed {s s' : AggregateExec} {ks : List GroupKey} {outs : List BatchResult}
    (listed : s.Listed groupByFields ks) (grouping : groupByFields ≠ [])
    (grouped : ∀ f ∈ groupByFields, Accumulator.FieldOf fields f.name f.dataType)
    (has : ∀ b ∈ batches, b.fields = fields)
    (fed : hashAggregateExec.feed s (batches.map .ok) = some (s', outs)) :
    s'.Listed groupByFields (ks ++ batches.flatMap (keysOf groupByFields)) := by
  induction batches generalizing s ks outs with
  | nil =>
      cases fed
      simpa using listed
  | cons batch rest ih =>
      have next := listed.absorbBatch Accumulator.update grouping (has batch (by simp) ▸ grouped)
      have later := fun b member => has b (List.mem_cons_of_mem batch member)
      rw [List.flatMap_cons, ← List.append_assoc]
      rw [List.map_cons, Operator.feed, if_neg (by simp [hashAggregateExec, listed.going])] at fed
      cases absorbed : s.absorbBatch Accumulator.update batch with
      | mk result s₁ =>
          rw [absorbed] at next
          cases result with
          | ok _ =>
              simp only [hashAggregateExec, absorbed] at fed
              exact ih next later fed
          | err e =>
              simp only [hashAggregateExec, absorbed] at fed
              obtain ⟨⟨s₂, rest⟩, fed', same⟩ := Option.map_eq_some_iff.mp fed
              cases same
              exact ih next later fed'
          | panic =>
              simp only [hashAggregateExec, absorbed] at fed
              cases fed

/-- **A worker with more than `2 ^ 32` groups comes to no result**: the last of them has no
index of its own. -/
theorem workerResult_eq_none (aggregates : List Aggregate) (grouping : groupByFields ≠ [])
    (grouped : ∀ f ∈ groupByFields, Accumulator.FieldOf fields f.name f.dataType)
    (has : ∀ b ∈ batches, b.fields = fields)
    (many : maxGroups < (distinctKeys groupByFields batches).length) :
    workerResult aggregates groupByFields batches = none := by
  rw [workerResult, Operator.result]
  cases fed : hashAggregateExec.feed (HashAggregateExec.new
      (aggregates.map (Aggregate.accumulator true)) groupByFields) (batches.map .ok) with
  | none => rfl
  | some ended =>
      obtain ⟨s, outs⟩ := ended
      have start : (HashAggregateExec.new (aggregates.map (Aggregate.accumulator true))
          groupByFields).Listed groupByFields [] :=
        ⟨rfl, rfl, by simp [HashAggregateExec.new], by simp⟩
      obtain ⟨rfl, going, narrow, listed⟩ := start.feed grouping grouped has fed
      have long : maxGroups < s.groupToIndex.length := by
        refine many.trans_le ?_
        rw [← List.length_map (f := Prod.fst)]
        refine ((nodup_eraseDups _).subperm fun k member => ?_).length_le
        exact listed k (List.mem_eraseDups.mp member)
      have closed : hashAggregateExec.close s = none := by
        rw [Operator.close, if_neg (by simp [hashAggregateExec, going])]
        have never := groupArrays_ne_ok grouping narrow long
        simp only [hashAggregateExec, finish]
        cases made : s.groupArrays with
        | ok arrays => exact (never arrays made).elim
        | err e => simp [Turn.returning, going]
        | panic => rfl
      rw [Option.bind_some, closed]
      rfl

/-- A batch of two columns of unsigned numbers. -/
def pairBatch (first second : String) (rows : List (U64 × U64)) : RecordBatch where
  fields := [⟨first, .data (.int .u64)⟩, ⟨second, .data (.int .u64)⟩]
  columns := [⟨.data (.int .u64), rows.map Prod.fst⟩, ⟨.data (.int .u64), rows.map Prod.snd⟩]
  numRows := rows.length
  typed := rfl
  lengths a member := by
    rcases List.mem_cons.mp member with rfl | later
    · exact List.length_map _
    · rw [List.mem_singleton.mp later]
      exact List.length_map _

abbrev u64 (n : Int) : U64 := MachineInt.wrap false 63 n

/-- Two workers of three, and a group that both have rows of. -/
theorem parallel_aggregation_two : ∃ partials,
    List.Forall₂ (fun batches sent => workerResult [.count "b", .max .u64 "b"]
        [⟨"a", .data (.int .u64)⟩] batches = some [.ok sent])
      [[pairBatch "a" "b" [(u64 1, u64 5)]], [], [pairBatch "a" "b" [(u64 1, u64 3)]]] partials ∧
    ∃ out keys, MergeAggregateExec.nextBatch (mergeStart [.count "b", .max .u64 "b"]
        [⟨"a", .data (.int .u64)⟩]) (partials.reverse.map .ok) = .ok out ∧
      ResultRows (fun a values v => a.Describes values v) [.count "b", .max .u64 "b"]
        [⟨"a", .data (.int .u64)⟩]
        [pairBatch "a" "b" [(u64 1, u64 5)], pairBatch "a" "b" [(u64 1, u64 3)]] keys out.rows := by
  obtain ⟨partials, sends, each⟩ := parallel_aggregation [.count "b", .max .u64 "b"]
    [⟨"a", .data (.int .u64)⟩] [⟨"a", .data (.int .u64)⟩, ⟨"b", .data (.int .u64)⟩]
    ⟨by simp [Accumulator.FieldOf], by
      simp [Aggregate.ReadsFrom, Aggregate.accumulator, Accumulator.ReadsFrom,
        Accumulator.FieldOf], by
      simp [Aggregate.outputName, Aggregate.accumulator, Accumulator.outputField], by simp⟩
    [[pairBatch "a" "b" [(u64 1, u64 5)]], [], [pairBatch "a" "b" [(u64 1, u64 3)]]]
    (by simp [HasRows, pairBatch]) (by decide)
  obtain ⟨s, out, keys, _, made, _, rows, _⟩ := each partials.reverse partials.reverse_perm
  exact ⟨partials, sends, out, keys, made, rows⟩

/-- **A group column is taken for a count** if it has the name of its output: the only row has
the count 7. -/
theorem count_of_group_column : ∃ sent out,
    workerResult [.count "b"] [⟨"count(b)", .data (.int .u64)⟩]
      [pairBatch "count(b)" "b" [(u64 7, u64 1)]] = some [.ok sent] ∧
    MergeAggregateExec.nextBatch (mergeStart [.count "b"] [⟨"count(b)", .data (.int .u64)⟩])
      [.ok sent] = .ok out ∧
    ∀ keys, ¬ ResultRows (fun a values v => a.Describes values v) [.count "b"]
      [⟨"count(b)", .data (.int .u64)⟩] [pairBatch "count(b)" "b" [(u64 7, u64 1)]] keys
        out.rows := by
  refine ⟨_, _, rfl, rfl, fun keys rows => ?_⟩
  obtain rfl : keys = [[⟨.data (.int .u64), u64 7⟩]] := List.perm_singleton.mp rows.1
  obtain ⟨cells, split, described⟩ := (List.forall₂_cons.mp rows.2).1
  obtain rfl : cells = [⟨.data (.int .u64), u64 7⟩] := (List.cons.inj split).2.symm
  obtain ⟨n, same, counted⟩ := (List.forall₂_cons.mp described).1
  cases same
  revert counted
  decide

/-- The numbers below a bound are as many keys. -/
theorem length_distinctKeys_numbers {m : Nat} (narrow : m ≤ 2 ^ 64) :
    m ≤ (distinctKeys [⟨"a", .data (.int .u64)⟩]
      [pairBatch "a" "b" ((List.range m).map fun n : Nat => (u64 n, u64 0))]).length := by
  have keys : ∀ rows : List (U64 × U64), keysOf [⟨"a", .data (.int .u64)⟩]
      (pairBatch "a" "b" rows) =
      rows.map fun row => [⟨.data (.int .u64), row.1⟩] := by
    intro rows
    show List.zipWith List.cons ((rows.map Prod.fst).map (Value.mk (.data (.int .u64))))
      (List.replicate rows.length []) = _
    induction rows with
    | nil => rfl
    | cons row rest ih => exact congrArg (_ :: ·) ih
  have distinct : ((List.range m).map fun n : Nat =>
      ([⟨.data (.int .u64), u64 n⟩] : GroupKey)).Nodup := by
    refine List.Nodup.map_on (fun k inK n inN same => ?_) List.nodup_range
    have value : ∀ {n : Nat}, n ∈ List.range m → (u64 n).val = n := by
      intro n inside
      rw [List.mem_range] at inside
      exact MachineInt.wrap_val_of_range (by simp [minVal]) (by simp [maxVal]; omega)
    have vals := congrArg MachineInt.val (eq_of_heq (Value.mk.inj (List.cons.inj same).1).2)
    rw [value inK, value inN] at vals
    exact Int.ofNat_inj.mp vals
  have inside : ((List.range m).map fun n : Nat =>
      ([⟨.data (.int .u64), u64 n⟩] : GroupKey)) ⊆ distinctKeys [⟨"a", .data (.int .u64)⟩]
      [pairBatch "a" "b" ((List.range m).map fun n : Nat => (u64 n, u64 0))] := by
    intro k member
    rw [distinctKeys, List.mem_eraseDups, List.flatMap_singleton, keys, List.map_map]
    exact member
  have long := (distinct.subperm inside).length_le
  rwa [List.length_map, List.length_range] at long

/-- A batch with the numbers up to `2 ^ 32` in its first column has one key more than there are
indices. -/
theorem workerResult_numbers :
    workerResult [.count "b"] [⟨"a", .data (.int .u64)⟩] [pairBatch "a" "b"
      ((List.range (maxGroups + 1)).map fun n : Nat => (u64 n, u64 0))] = none :=
  @workerResult_eq_none [⟨"a", .data (.int .u64)⟩]
    [⟨"a", .data (.int .u64)⟩, ⟨"b", .data (.int .u64)⟩] _ _ (by simp)
    (by simp [Accumulator.FieldOf]) (by simp [pairBatch])
    (Nat.lt_of_lt_of_le (Nat.lt_succ_self maxGroups) (length_distinctKeys_numbers (by decide)))

/-- **Where parallel aggregation goes wrong.** A group column is taken for a count that has the
name of its output; and there is no result for more than `2 ^ 32` keys. -/
theorem parallel_aggregation_fails :
    (∃ sent out, workerResult [.count "b"] [⟨"count(b)", .data (.int .u64)⟩]
        [pairBatch "count(b)" "b" [(u64 7, u64 1)]] = some [.ok sent] ∧
      MergeAggregateExec.nextBatch (mergeStart [.count "b"] [⟨"count(b)", .data (.int .u64)⟩])
        [.ok sent] = .ok out ∧
      ∀ keys, ¬ ResultRows (fun a values v => a.Describes values v) [.count "b"]
        [⟨"count(b)", .data (.int .u64)⟩] [pairBatch "count(b)" "b" [(u64 7, u64 1)]] keys
          out.rows) ∧
    workerResult [.count "b"] [⟨"a", .data (.int .u64)⟩] [pairBatch "a" "b"
      ((List.range (maxGroups + 1)).map fun n : Nat => (u64 n, u64 0))] = none :=
  ⟨count_of_group_column, workerResult_numbers⟩

end AggregateExec

end TinyOlap.Execution
