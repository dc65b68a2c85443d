import TinyOlap.AggregatePlan
import TinyOlap.Execution.ErrorFlow
import TinyOlap.RowPlan

/-!
# Results of queries with aggregation

The answer to a query with aggregation has a column for each item of the SELECT list and a row
for each key of the matching rows. A worker projects its partial result on the SELECT list, but
the final aggregation then looks up all of its own columns by name, and returns these in its own
order: the GROUP BY columns, then the aggregates. So there is an answer if this is the SELECT
list (`InOrder`), and none otherwise.
-/

set_option autoImplicit false

namespace TinyOlap

open Library Library.WorkPool Catalog Arrow Storage Frontend Physical Execution

variable {schema : TableSchema}

/-! ## Answers -/

/-- What the cell of an item says about the rows of a group. -/
def AggregateItem.Describes (rows : List NamedRow) : AggregateItem schema → Value → Prop
  | group ref _, v => ∀ row ∈ rows, row.lookup ref.column.name = some v
  | call c _, v => c.aggregate.Describes (rows.map (cellIn c.ref.column.name)) v

theorem AggregateItem.Describes.perm {rows rows' : List NamedRow} {item : AggregateItem schema}
    {v : Value} (describes : item.Describes rows v) (same : rows.Perm rows') :
    item.Describes rows' v := by
  cases item with
  | group ref aliasName => exact fun row member => describes row (same.mem_iff.mpr member)
  | call c aliasName => exact Aggregate.Describes.perm describes (same.map _)

namespace AggregateQuery

variable (q : AggregateQuery schema)

/-- The rows that satisfy the WHERE clause. -/
def matching (rows : List NamedRow) : List NamedRow :=
  rows.filter fun row => q.selection.all (WherePredicate.holds row)

/-- **The answer to a query with aggregation**: a column for each item, and for each key a row
that describes the rows of its group. -/
def IsAnswer (rows : List NamedRow) (out : RecordBatch) : Prop :=
  out.fields = q.items.map AggregateItem.field ∧
  ∃ keys : List GroupKey, keys.Perm (keysOfRows q.groupNames (q.matching rows)) ∧
    List.Forall₂ (fun key cells => List.Forall₂ (fun item v =>
      item.Describes (rowsOfGroup q.groupNames (q.matching rows) key) v) q.items cells)
      keys out.rows

theorem IsAnswer.perm {q : AggregateQuery schema} {rows rows' : List NamedRow}
    {out : RecordBatch} (answer : q.IsAnswer rows out) (same : rows.Perm rows') :
    q.IsAnswer rows' out := by
  obtain ⟨fields, keys, each, described⟩ := answer
  refine ⟨fields, keys, each.trans (keysOfRows_perm (same.filter _)), described.imp ?_⟩
  exact fun key cells items => items.imp fun item v describes =>
    describes.perm ((same.filter _).filter _)

/-- The query returns its answer, in one batch. -/
def Answers (lz4 : Lz4) (query : Query) (tableDir : PartList) (workers : Nat)
    (rows : List NamedRow) : Prop :=
  QueryYields lz4 schema query tableDir workers fun returned =>
    ∃ out, returned = [out] ∧ q.IsAnswer rows out

/-! ## When there is an answer -/

/-- The SELECT list is what the final aggregation returns. -/
def InOrder : Prop := q.labels = q.groupNames ++ q.aggregates.map Aggregate.outputName

/-- No GROUP BY column has the name of an aggregate's output. -/
def Clear : Prop :=
  ∀ ref ∈ q.groupBy, ∀ call ∈ q.calls, ref.column.name ≠ call.aggregate.outputName

/-- There are not more keys than indices. -/
def Few (rows : List NamedRow) : Prop :=
  (keysOfRows q.groupNames (q.matching rows)).length ≤ maxGroups

instance : Decidable q.InOrder := inferInstanceAs (Decidable (_ = _))

instance : Decidable q.Clear :=
  inferInstanceAs (Decidable (∀ ref ∈ q.groupBy, ∀ call ∈ q.calls,
    ref.column.name ≠ call.aggregate.outputName))

instance (rows : List NamedRow) : Decidable (q.Few rows) := inferInstanceAs (Decidable (_ ≤ _))

/-- **Only in this order, and with as many keys, there is an answer.** -/
theorem inOrder_of_answers {lz4 : Lz4} {query : Query} (written : q.WrittenAs query)
    {tableDir : PartList} {workers : Nat} {rows : List NamedRow}
    (answers : q.Answers lz4 query tableDir workers rows) : q.InOrder ∧ q.Few rows := by
  obtain ⟨root, g, _, ran, returned, out, rfl, fields, keys, each, described⟩ :=
    QueryYields.exists_returned answers
  obtain ⟨input, p, columns, _, _, _, planned⟩ := q.exists_root written
  rw [planned] at ran
  cases ran
  obtain ⟨_, s, made, consumed, finished, same⟩ :=
    (AggregateExec.returned_merged rfl).mp returned
  cases same
  have kept := AggregateExec.kept_consume consumed
  have start := AggregateExec.sums_merge q.aggregates q.groupByFields
  constructor
  · have schema := (fields_of_finish finished).trans (kept.schema.trans start.schema)
    have names := congrArg (List.map Field.name) (fields.symm.trans schema)
    rw [List.map_map, List.map_append, groupByFields, List.map_map, List.map_map] at names
    refine .trans (.trans ?_ names) ?_
    · exact List.map_congr_left fun item _ => item.name_field.symm
    · exact congrArg _ (List.map_congr_left fun a _ => a.outputName_eq false)
  · by_cases grouping : q.groupBy = []
    · rw [Few, keysOfRows, if_pos (by rw [groupNames, grouping, List.map_nil])]
      exact Nat.one_le_two_pow
    · rw [Few, ← each.length_eq, described.length_eq, RecordBatch.rows_length]
      refine AggregateExec.numRows_le_of_finish ?_ (kept.narrow fun entry member => ?_) finished
      · rw [kept.fields, start.fields, groupByFields, ne_eq, List.map_eq_nil_iff]
        exact grouping
      · exact (List.not_mem_nil member).elim

/-! ## The clauses and the columns -/

variable {q : AggregateQuery schema} {columns : List ColumnSchema}

theorem name_groupByFields : q.groupByFields.map Field.name = q.groupNames := by
  rw [groupByFields, List.map_map, groupNames]
  rfl

/-- A column that is read has its type among the fields. -/
theorem fieldOf_ref (distinct : schema.Distinct) (known : ∀ c ∈ columns, c ∈ schema.columns)
    {ref : ColumnRef schema} (read : ref.column.name ∈ columns.map ColumnSchema.name) :
    Accumulator.FieldOf (columns.map Field.ofColumn) ref.column.name
      (toArrow ref.column.dataType) := by
  refine ⟨Field.ofColumn ref.column, ?_, rfl⟩
  rw [find?_columns distinct known read, ref.found, Option.map_some]

/-- An aggregate reads the column of its call. -/
theorem readsFrom_aggregate (distinct : schema.Distinct)
    (known : ∀ c ∈ columns, c ∈ schema.columns) {call : AggregateCall schema}
    (read : call.ref.column.name ∈ columns.map ColumnSchema.name) :
    call.aggregate.ReadsFrom (columns.map Field.ofColumn) := by
  have field := fieldOf_ref distinct known read
  rw [← dataType_of_numericType call.numeric] at field
  obtain ⟨name, func, named, ref, type, numeric⟩ := call
  cases func with
  | count => trivial
  | avg => exact ⟨_, field⟩
  | sum => cases type <;> exact field
  | min => cases type <;> exact field
  | max => cases type <;> exact field

/-- The clauses of a query suit the columns that its scan reads. -/
theorem sound (clear : q.Clear) (distinct : schema.Distinct)
    (known : ∀ c ∈ columns, c ∈ schema.columns)
    (groups : q.groupNames ⊆ columns.map ColumnSchema.name)
    (arguments : ∀ call ∈ q.calls, call.ref.column.name ∈ columns.map ColumnSchema.name) :
    AggregateExec.Sound q.aggregates q.groupByFields (columns.map Field.ofColumn) where
  grouped f member := by
    obtain ⟨ref, inside, rfl⟩ := List.mem_map.mp member
    exact fieldOf_ref distinct known (groups (List.mem_map_of_mem inside))
  reads a member := by
    obtain ⟨call, inside, rfl⟩ := List.mem_map.mp member
    exact readsFrom_aggregate distinct known (arguments call inside)
  clear f member a here := by
    obtain ⟨ref, inside, rfl⟩ := List.mem_map.mp member
    obtain ⟨call, there, rfl⟩ := List.mem_map.mp here
    exact clear ref inside call there
  some := by
    rw [groupByFields, aggregates, ne_eq, ne_eq, List.map_eq_nil_iff, List.map_eq_nil_iff, calls]
    exact q.nonempty

/-! ## The cells of a row -/

/-- An aggregate is known by the name of its output. -/
theorem aggregate_eq (distinct : schema.Distinct) {call other : AggregateCall schema}
    (same : call.aggregate.outputName = other.aggregate.outputName) :
    call.aggregate = other.aggregate := by
  have reads : ∀ c : AggregateCall schema,
      c.aggregate.ReadsFrom (schema.columns.map Field.ofColumn) := fun c =>
    readsFrom_aggregate distinct (fun _ inside => inside)
      (List.mem_map_of_mem (TableSchema.find_some c.ref.found).1)
  exact Aggregate.eq_of_outputName (reads call) (reads other) same

/-- Items in the order of the final aggregation are the GROUP BY columns, one by one, and then
the aggregates. -/
theorem exists_split (distinct : schema.Distinct) (ordered : q.InOrder) (clear : q.Clear) :
    ∃ groups calls, q.items = groups ++ calls ∧
      List.Forall₂ (fun item (ref : ColumnRef schema) => ∃ r aliasName,
        item = .group r aliasName ∧ r.column = ref.column) groups q.groupBy ∧
      List.Forall₂ (fun item a => ∃ c aliasName,
        item = .call c aliasName ∧ c.aggregate = a) calls q.aggregates := by
  obtain ⟨groups, calls, split, groupLabels, callLabels⟩ := List.map_eq_append_iff.mp ordered
  have apart : ∀ {ref : ColumnRef schema} {call : AggregateCall schema},
      ref.column ∈ q.groupBy.map ColumnRef.column → call ∈ q.calls →
        ref.column.name ≠ call.aggregate.outputName := by
    intro ref call grouped called
    obtain ⟨other, inside, same⟩ := List.mem_map.mp grouped
    exact same ▸ clear other inside call called
  have called : ∀ {c aliasName}, .call c aliasName ∈ q.items → c ∈ q.calls := fun member =>
    List.mem_filterMap.mpr ⟨_, member, rfl⟩
  refine ⟨groups, calls, split, ?_, ?_⟩
  · refine (forall₂_getElem? (forall₂_of_map_eq groupLabels.symm)).imp ?_
    rintro item ref ⟨j, left, right, named⟩
    have member := List.mem_append_left calls (List.mem_of_getElem? left)
    have grouped := List.mem_map_of_mem (f := ColumnRef.column) (List.mem_of_getElem? right)
    rw [← split] at member
    cases item with
    | group r aliasName =>
        have found := ref.found
        rw [named, AggregateItem.label, r.found] at found
        exact ⟨r, aliasName, rfl, Option.some.inj found⟩
    | call c aliasName => exact (apart grouped (called member) named).elim
  · refine (forall₂_getElem? (forall₂_of_map_eq callLabels.symm)).imp ?_
    rintro item a ⟨j, left, right, named⟩
    have member := List.mem_append_right groups (List.mem_of_getElem? left)
    obtain ⟨call, inside, rfl⟩ := List.mem_map.mp (List.mem_of_getElem? right)
    rw [← split] at member
    cases item with
    | group r aliasName =>
        exact (apart (q.grouped r aliasName member) inside named.symm).elim
    | call c aliasName => exact ⟨c, aliasName, rfl, aggregate_eq distinct named.symm⟩

/-- **A row of the final aggregation describes the items**, if they are in its order. -/
theorem describes_items (distinct : schema.Distinct) (ordered : q.InOrder) (clear : q.Clear)
    {group : List NamedRow} {key : GroupKey} {cells : List Value}
    (keyed : List.Forall₂ (fun name v => ∀ row ∈ group, row.lookup name = some v)
      q.groupNames key)
    (described : List.Forall₂ (fun a v =>
      Aggregate.Describes (group.map (cellIn a.columnName)) a v) q.aggregates cells) :
    List.Forall₂ (fun item v => item.Describes group v) q.items (key ++ cells) := by
  obtain ⟨groups, calls, split, refs, aggregates⟩ := exists_split distinct ordered clear
  rw [split]
  rw [groupNames, List.forall₂_map_left_iff] at keyed
  refine List.rel_append (forall₂_trans refs keyed ?_) (forall₂_trans aggregates described ?_)
  · rintro item ref v ⟨r, aliasName, rfl, same⟩ cell
    rw [← same] at cell
    exact cell
  · rintro item a v ⟨c, aliasName, rfl, rfl⟩ describes
    rw [AggregateCall.aggregate, columnName_aggregateOf] at describes
    exact describes

/-- The fields of the final aggregation are those of the items, if they are in its order. -/
theorem fields_items (distinct : schema.Distinct) (ordered : q.InOrder) (clear : q.Clear) :
    q.groupByFields ++ q.aggregates.map (fun a => (a.accumulator false).outputField) =
      q.items.map AggregateItem.field := by
  obtain ⟨groups, calls, split, refs, aggregates⟩ := exists_split distinct ordered clear
  rw [split, List.map_append, groupByFields]
  congr 1
  · refine map_eq_of_forall₂ (refs.imp ?_)
    rintro item ref ⟨r, aliasName, rfl, same⟩
    rw [AggregateItem.field, same]
  · refine map_eq_of_forall₂ (aggregates.imp ?_)
    rintro item a ⟨c, aliasName, rfl, rfl⟩
    rfl

/-! ## The rows of the result -/

section Rows

variable {fields : List Field} {batches : List RecordBatch} {names : List String}
  {rows : List NamedRow} {keys : List GroupKey} {out : RecordBatch}

/-- The values of a group of the batches are those of the rows, of which the batches have some
columns. -/
theorem groupValues_rows
    (grouped : ∀ f ∈ q.groupByFields, Accumulator.FieldOf fields f.name f.dataType)
    (has : ∀ b ∈ batches, b.fields = fields)
    (inputs : batches.flatMap RecordBatch.namedRows = rows.map (restrictRow names))
    (present : ∀ row ∈ rows, HasNames names row) (groups : q.groupNames ⊆ names)
    {a : Aggregate} (argument : a.columnName ∈ names) (key : GroupKey) :
    Aggregate.groupValues q.groupByFields batches key a =
      (rowsOfGroup q.groupNames rows key).map (cellIn a.columnName) := by
  rw [a.groupValues_eq grouped has, inputs, name_groupByFields,
    rowsOfGroup_restrictRow present groups, List.map_map]
  refine List.map_congr_left fun row member => ?_
  exact cellIn_restrictRow (present row (List.mem_of_mem_filter member)) argument

/-- **The result of the final aggregation is the answer**, if it is in order. -/
theorem isAnswer_of_result (distinct : schema.Distinct) (ordered : q.InOrder) (clear : q.Clear)
    (grouped : ∀ f ∈ q.groupByFields, Accumulator.FieldOf fields f.name f.dataType)
    (has : ∀ b ∈ batches, b.fields = fields)
    (inputs : batches.flatMap RecordBatch.namedRows = (q.matching rows).map (restrictRow names))
    (present : ∀ row ∈ q.matching rows, HasNames names row) (groups : q.groupNames ⊆ names)
    (arguments : ∀ a ∈ q.aggregates, a.columnName ∈ names)
    (outFields : out.fields = q.groupByFields ++
      q.aggregates.map fun a => (a.accumulator false).outputField)
    (result : ResultRows (fun a values v => a.Describes values v) q.aggregates q.groupByFields
      batches keys out.rows) : q.IsAnswer rows out := by
  obtain ⟨all, each⟩ := result
  rw [AggregateExec.resultKeys_eq grouped has, name_groupByFields, inputs,
    keysOfRows_restrictRow present groups] at all
  refine ⟨outFields.trans (fields_items distinct ordered clear), keys, all, ?_⟩
  refine ((List.forall₂_and_left _ _).mpr ⟨fun key member => all.mem_iff.mp member, each⟩).imp ?_
  rintro key row ⟨listed, cells, rfl, described⟩
  have keyed := forall₂_key (fun row member name inside => present row member name (groups inside))
    listed
  refine describes_items distinct ordered clear keyed ?_
  refine ((List.forall₂_and_left _ _).mpr ⟨arguments, described⟩).imp ?_
  rintro a v ⟨argument, describes⟩
  rwa [groupValues_rows grouped has inputs present groups argument] at describes

end Rows

/-! ## The whole query -/

/-- The scan of the query reads what the clauses name. -/
theorem reads_columns {input : Logical.LogicalPlan} {p : Option PhysicalExpr}
    (distinct : schema.Distinct) (supported : ∀ v ∈ q.selection, v.Supported)
    (plan : InputPlan q.selection input p)
    (names : columns.map ColumnSchema.name = q.columnNames input)
    (known : ∀ c ∈ columns, c ∈ schema.columns) :
    Reads schema columns p q.groupNames ∧
      ∀ call ∈ q.calls, call.ref.column.name ∈ columns.map ColumnSchema.name := by
  have some : columns ≠ [] := by
    rintro rfl
    exact q.columnNames_ne_nil names.symm
  refine ⟨plan.reads distinct supported some known ?_ ?_, fun call member => ?_⟩
  · exact fun name member => names ▸ q.mem_columnNames.mpr (.inr (.inr member))
  · exact fun name member => names ▸ q.mem_columnNames.mpr (.inl member)
  · exact names ▸ q.mem_columnNames.mpr (.inr (.inl ⟨call, member, rfl⟩))

section Inputs

variable {lz4 : Lz4} {p : Option PhysicalExpr} {parts : List PartDir}

/-- The rows that reach the aggregation are the matching rows, with the columns that are read. -/
theorem namedRows_inputBatches (reads : Reads schema columns p q.groupNames)
    (means : ∀ row, p.all (holds row) = q.selection.all (WherePredicate.holds row))
    (filled : ∀ partDir ∈ parts, Filled lz4 schema partDir) :
    (AggregateExec.inputBatches lz4 columns p parts).flatMap RecordBatch.namedRows =
      (q.matching (parts.flatMap (partRows lz4 schema))).map
        (restrictRow (columns.map ColumnSchema.name)) := by
  rw [matching]
  simpa only [means] using reads.inputRows filled

theorem hasNames_matching (reads : Reads schema columns p q.groupNames)
    (filled : ∀ partDir ∈ parts, Filled lz4 schema partDir) :
    ∀ row ∈ q.matching (parts.flatMap (partRows lz4 schema)),
      HasNames (columns.map ColumnSchema.name) row := by
  intro row member
  obtain ⟨partDir, here, inside⟩ := List.mem_flatMap.mp (List.mem_of_mem_filter member)
  exact reads.hasNames (filled partDir here) inside

/-- The workers have no more keys than the rows of the table. -/
theorem few_inputBatches {rows : List NamedRow}
    (sound : AggregateExec.Sound q.aggregates q.groupByFields (columns.map Field.ofColumn))
    (reads : Reads schema columns p q.groupNames)
    (means : ∀ row, p.all (holds row) = q.selection.all (WherePredicate.holds row))
    (filled : ∀ partDir ∈ parts, Filled lz4 schema partDir)
    (same : (parts.flatMap (partRows lz4 schema)).Perm rows) (few : q.Few rows) :
    (AggregateExec.distinctKeys q.groupByFields
      (AggregateExec.inputBatches lz4 columns p parts)).length ≤ maxGroups := by
  refine (AggregateExec.distinctKeys_length_le_resultKeys _).trans ?_
  rw [AggregateExec.resultKeys_eq sound.grouped
      fun b member => (AggregateExec.inputBatches_filled reads filled b member).1,
    name_groupByFields, namedRows_inputBatches reads means filled,
    keysOfRows_restrictRow (hasNames_matching reads filled) reads.selected]
  exact (keysOfRows_perm (same.filter _)).length_eq ▸ few

end Inputs

/-- **A query in the order of the final aggregation returns its answer**, if its WHERE clause
runs and no GROUP BY column has the name of an aggregate's output. -/
theorem answers_of_inOrder {lz4 : Lz4} {query : Query} (written : q.WrittenAs query)
    (distinct : schema.Distinct) (ordered : q.InOrder) (clear : q.Clear)
    (supported : ∀ v ∈ q.selection, v.Supported) {batches : List InsertBatch}
    {tableDir : PartList} (stored : StoredAs lz4 schema tableDir batches)
    (filled : ∀ batch ∈ batches, 0 < batch.numRows)
    (few : q.Few (insertedRows schema batches)) {workers : Nat} (positive : 0 < workers) :
    q.Answers lz4 query tableDir workers (insertedRows schema batches) := by
  obtain ⟨input, p, columns, plan, names, known, planned⟩ := q.exists_root written
  obtain ⟨reads, arguments⟩ := reads_columns distinct supported plan names known
  have sound := sound clear distinct known reads.selected arguments
  have parts := stored.filled filled
  have rows := stored.partRows_perm distinct reads.someColumn
  have means := plan.means supported
  have has : ∀ b ∈ AggregateExec.inputBatches lz4 columns p (listParts tableDir),
      b.fields = columns.map Field.ofColumn := fun b member =>
    (AggregateExec.inputBatches_filled reads parts b member).1
  have few' := few_inputBatches sound reads means parts rows few
  have labels : q.labels = aggregateNames q.aggregates q.groupByFields := by
    rw [aggregateNames, name_groupByFields]
    exact ordered
  obtain ⟨_, _, base, weight, delivers, _⟩ :=
    AggregateExec.exists_delivers reads parts sound few'
  refine ⟨_, _, planned _, if_neg (Nat.ne_of_gt positive), ?_, fun events g ran hungUp => ?_⟩
  · rw [labels]
    exact ends_of_delivers delivers workers
  · rw [labels] at ran
    obtain ⟨s, out, keys, consumed, made, outFields, result⟩ :=
      AggregateExec.exists_merged reads parts sound few' positive ran hungUp
    refine ⟨[out], (AggregateExec.returned_merged rfl).mpr
      ⟨hungUp, s, out, consumed, made, rfl⟩, out, rfl, ?_⟩
    refine IsAnswer.perm ?_ rows
    refine isAnswer_of_result distinct ordered clear sound.grouped has
      (namedRows_inputBatches reads means parts) (hasNames_matching reads parts) reads.selected
      (fun a member => ?_) outFields result
    obtain ⟨call, inside, rfl⟩ := List.mem_map.mp member
    rw [AggregateCall.aggregate, columnName_aggregateOf]
    exact arguments call inside

end AggregateQuery

/-! ## A count without its group column -/

/-- The row `(1, 2)`. -/
def onePair : InsertBatch where
  fields := [⟨"a", .data (.int .i64)⟩, ⟨"b", .data (.int .i64)⟩]
  columns := [⟨.data (.int .i64), [MachineInt.wrap true 63 1]⟩,
    ⟨.data (.int .i64), [MachineInt.wrap true 63 2]⟩]
  numRows := 1
  typed := rfl
  lengths := by decide
  offsets := by decide

/-- The group column of `pairSchema`. -/
def pairGroup : ColumnRef pairSchema := ⟨⟨"b", .int .i64⟩, rfl, false⟩

/-- `COUNT(a)`. -/
def pairCount : AggregateCall pairSchema where
  name := "COUNT"
  func := .count
  named := rfl
  ref := ⟨⟨"a", .int .i64⟩, rfl, false⟩
  type := .int .i64
  numeric := rfl

/-- `SELECT items FROM t GROUP BY b`. -/
def groupedQuery (items : List (AggregateItem pairSchema)) : Query where
  «with» := false
  body := .select
    { distinct := false
      projection := items.map AggregateItem.toItem
      «from» := [⟨.table "t", []⟩]
      selection := none
      groupBy := .expressions [pairGroup.toExpr] []
      having := none }
  orderBy := []
  limitClause := none
  fetch := false

/-- `SELECT COUNT(a) FROM t GROUP BY b`. -/
def countAlone : AggregateQuery pairSchema where
  items := [.call pairCount none]
  groupBy := [pairGroup]
  selection := none
  grouped := by simp
  nonempty := .inl (by simp)

/-- `SELECT b, COUNT(a) FROM t GROUP BY b`. -/
def groupAndCount : AggregateQuery pairSchema where
  items := [.group pairGroup none, .call pairCount none]
  groupBy := [pairGroup]
  selection := none
  grouped := by simp
  nonempty := .inl (by simp)

theorem countAlone_written : countAlone.WrittenAs (groupedQuery countAlone.items) :=
  ⟨⟨_, _, rfl, rfl, rfl, rfl⟩, rfl⟩

theorem groupAndCount_written : groupAndCount.WrittenAs (groupedQuery groupAndCount.items) :=
  ⟨⟨_, _, rfl, rfl, rfl, rfl⟩, rfl⟩

theorem planSelect_countAlone :
    planSelect (.query (groupedQuery countAlone.items)) pairSchema = .ok countByPlan := by
  have columns : orderedSet ["a", "b", "a"] = ["a", "b"] := by
    simp [orderedSet, List.mergeSort]
  have lowered : Logical.optimize pairSchema countAlone.toLogical =
      .ok (countAlone.optimized (.scan "t")) := rfl
  have collected : collectColumns (countAlone.optimized (.scan "t")) = ["a", "b", "a"] := rfl
  rw [planSelect_of_lower (countAlone.lower_query countAlone_written), planLogical, lowered,
    Outcome.ok_bind, Physical.lower, collected, columns]
  rfl

end TinyOlap
