import TinyOlap.Execution.Aggregation.Accumulator

/-!
# Grouping

Rows are grouped by the cells of some columns. A table maps each group to its index, in
the order in which the groups appear; indices are 32-bit. The partial aggregation inside
a worker (`hashAggregateExec`) gives each batch to its accumulators to update, the final
one (`MergeAggregateExec.nextBatch`) gives the partial results to its accumulators to
merge; apart from that both are the same. At the end a batch is made of one row for each
group: the group's cells, then the slots of the accumulators.
-/

set_option autoImplicit false

namespace TinyOlap.Execution

open Library Library.WorkPool Catalog Arrow

/-! ## Keys -/

/-- A row of the group columns. -/
abbrev GroupKey : Type := List Value

/-- The value, if it is of the type. -/
def cast (t : ArrowType) (v : Value) : Option t.Native :=
  if same : v.type = t then some (same ▸ v.val) else none

/-- `convert_columns`: the rows of the group columns. The converter knows their types. -/
def convertColumns (fields : List Field) (arrays : List ArrayRef) (numRows : Nat) :
    ExecResult (List GroupKey) :=
  if arrays.map ArrayRef.type = fields.map Field.dataType then
    .ok (RecordBatch.rowsOf numRows arrays)
  else .err (.arrow .rowConverter)

/-- `convert_rows`: the columns of rows. -/
def convertRows : List Field → List GroupKey → Option (List ArrayRef)
  | [], _ => some []
  | f :: fields, keys => do
      let values ← keys.mapM fun key => key.head?.bind (cast f.dataType)
      let rest ← convertRows fields (keys.map List.tail)
      some (⟨f.dataType, values⟩ :: rest)

/-- Groups with their indices. -/
abbrev GroupTable : Type := List (GroupKey × Nat)

/-- The index of a group, which is new or known. -/
def groupIndex (groups : GroupTable) (key : GroupKey) : GroupTable × Nat :=
  let nextIdx := groups.length % 2 ^ 32
  match groups.lookup key with
  | some idx => (groups, idx)
  | none => (groups ++ [(key, nextIdx)], nextIdx)

/-- The indices of the groups of all rows. -/
def assignGroups (groups : GroupTable) : List GroupKey → GroupTable × List Nat
  | [] => (groups, [])
  | key :: rest =>
      let (groups, idx) := groupIndex groups key
      let (groups, idxs) := assignGroups groups rest
      (groups, idx :: idxs)

/-! ## The operators -/

structure AggregateExec where
  outputSchema : List Field
  emitted : Bool
  accumulators : List Accumulator
  groupByFields : List Field
  groupToIndex : GroupTable

/-- `HashAggregateExec::new`. -/
def HashAggregateExec.new (accumulators : List Accumulator) (groupByFields : List Field) :
    AggregateExec :=
  ⟨groupByFields ++ accumulators.map Accumulator.outputField, false, accumulators, groupByFields,
    []⟩

/-- `MergeAggregateExec::new`. Without GROUP BY there is one row in any case. -/
def MergeAggregateExec.new (accumulators : List Accumulator) (groupByFields : List Field) :
    AggregateExec :=
  HashAggregateExec.new
    (if groupByFields.isEmpty then accumulators.map (Accumulator.ensureCapacity 1)
      else accumulators)
    groupByFields

namespace AggregateExec

/-- The group columns of a batch, row by row. -/
def groupKeys (s : AggregateExec) (batch : RecordBatch) : ExecResult (List GroupKey) := do
  let groupByArrays ← s.groupByFields.mapM fun f => .orPanic (batch.columnByName f.name)
  convertColumns s.groupByFields groupByArrays batch.numRows

/-- Give a batch to the accumulators, up to the first error. By then an accumulator has
already grown. -/
def absorbAll (absorb : Accumulator → ExecResult Accumulator) (numGroups : Nat) :
    List Accumulator → ExecResult Unit × List Accumulator
  | [] => (.ok (), [])
  | acc :: rest =>
      match absorb acc with
      | .ok acc =>
          let (result, rest) := absorbAll absorb numGroups rest
          (result, acc :: rest)
      | .err e => (.err e, acc.ensureCapacity numGroups :: rest)
      | .panic => (.panic, acc :: rest)

/-- Take a batch: find the groups of its rows, then give it to the accumulators. -/
def absorbBatch (absorb : RecordBatch → List Nat → Nat → Accumulator → ExecResult Accumulator)
    (s : AggregateExec) (batch : RecordBatch) : ExecResult Unit × AggregateExec :=
  if s.groupByFields.isEmpty then
    let (result, accumulators) :=
      absorbAll (absorb batch (List.replicate batch.numRows 0) 1) 1 s.accumulators
    (result, { s with accumulators := accumulators })
  else
    match s.groupKeys batch with
    | .ok keys =>
        let (groups, groupIndices) := assignGroups s.groupToIndex keys
        let (result, accumulators) :=
          absorbAll (absorb batch groupIndices groups.length) groups.length s.accumulators
        (result, { s with accumulators := accumulators, groupToIndex := groups })
    | .err e => (.err e, s)
    | .panic => (.panic, s)

/-- The group columns of the output, in the order of the indices. -/
def groupArrays (s : AggregateExec) : ExecResult (List ArrayRef) :=
  if s.groupByFields.isEmpty then .ok []
  else do
    let ordered ← (List.range s.groupToIndex.length).mapM fun idx =>
      .orPanic ((s.groupToIndex.find? fun entry => entry.2 = idx).map Prod.fst)
    .orPanic (convertRows s.groupByFields ordered)

/-- All batches are taken: make the output. -/
def finish (s : AggregateExec) : ExecResult RecordBatch × AggregateExec :=
  match s.groupArrays with
  | .ok groupArrays =>
      let allArrays := groupArrays ++ s.accumulators.map Accumulator.materialize
      let s := { s with accumulators := s.accumulators.map Accumulator.emptied }
      match RecordBatch.tryNew s.outputSchema allArrays with
      | .ok batch => (.ok batch, { s with emitted := true })
      | .err e => (.err (.arrow e), s)
      | .panic => (.panic, s)
  | .err e => (.err e, s)
  | .panic => (.panic, s)

end AggregateExec

/-- `HashAggregateExec`. -/
def hashAggregateExec : Operator AggregateExec BatchResult BatchResult where
  gate s := s.emitted
  item
    | s, .ok batch =>
        match s.absorbBatch Accumulator.update batch with
        | (.ok (), s) => .again s
        | (.err e, s) => .ret (some (.error e)) s
        | (.panic, _) => .panic
    | s, .error e => .ret (some (.error e)) s
  last s := Turn.returning s.finish.2 s.finish.1

/-- The loop of `MergeAggregateExec::next_batch` over what its child returns. -/
def AggregateExec.consume (s : AggregateExec) : List BatchResult → ExecResult AggregateExec
  | [] => .ok s
  | .error e :: _ => .err e
  | .ok batch :: rest =>
      match s.absorbBatch Accumulator.merge batch with
      | (.ok (), s) => s.consume rest
      | (.err e, _) => .err e
      | (.panic, _) => .panic

/-- `MergeAggregateExec::next_batch`, given all that its child returns. -/
def MergeAggregateExec.nextBatch (s : AggregateExec) (results : List BatchResult) :
    ExecResult RecordBatch := do
  let s ← s.consume results
  s.finish.1

end TinyOlap.Execution
