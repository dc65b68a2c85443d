import TinyOlap.RowPlan

/-!
# The law of LIMIT

A query with `LIMIT n` should return rows of the query without it, no row twice, and as many as
there are, up to `n`. Of a query without aggregation the first holds under every schedule. There
are never too few rows, but as every worker has a limit of its own, there may be `n` of each
worker. The number is right under every schedule exactly if the limit is zero or is not
exceeded, or if there is only one worker, or only one insert with matching rows.
-/

set_option autoImplicit false

namespace TinyOlap

open Library Library.WorkPool Catalog Arrow Storage Frontend Physical Execution

variable {lz4 : Lz4} {schema : TableSchema}

/-- The law of `LIMIT n` for a query that returns these rows without it. -/
def KeepsLimit (n : Nat) (all : List (List Value)) (returned : List RecordBatch) : Prop :=
  (returned.flatMap RecordBatch.rows).Subperm all ∧
    (returned.flatMap RecordBatch.rows).length = min n all.length

/-- What holds in any case. -/
def BoundsLimit (n workers : Nat) (all : List (List Value)) (returned : List RecordBatch) :
    Prop :=
  (returned.flatMap RecordBatch.rows).Subperm all ∧
    min n all.length ≤ (returned.flatMap RecordBatch.rows).length ∧
    (returned.flatMap RecordBatch.rows).length ≤ n * workers

/-- The inserts with matching rows. -/
def matchingInserts (items : List (ColumnItem schema)) (w : Option (WherePredicate schema))
    (batches : List InsertBatch) : Nat :=
  batches.countP fun batch => 0 < (answer (selectNames items) w batch.toRecordBatch).length

section Law

variable {items : List (ColumnItem schema)} {w : Option (WherePredicate schema)}
  {batches : List InsertBatch} {tableDir : PartList}

/-- The numbers of rows that a query selects of the parts are those of the inserts. -/
theorem sum_and_countP_selectedRows (distinct : schema.Distinct) (columns : schema.columns ≠ [])
    {p : Option PhysicalExpr}
    (means : ∀ row, p.all (holds row) = w.all (WherePredicate.holds row))
    (stored : StoredAs lz4 schema tableDir batches) :
    let amount := fun partDir => (selectedRows lz4 schema p (selectNames items) partDir).length
    ((listParts tableDir).flatMap (selectedRows lz4 schema p (selectNames items))).Perm
        (rowAnswers items w batches) ∧
      ((listParts tableDir).map amount).sum = (rowAnswers items w batches).length ∧
      (listParts tableDir).countP (fun partDir => 0 < amount partDir) =
        matchingInserts items w batches := by
  intro amount
  obtain ⟨order, perm, written⟩ := stored.exists_order
  have same : List.Forall₂ (fun partDir (batch : InsertBatch) =>
      selectedRows lz4 schema p (selectNames items) partDir =
        answer (selectNames items) w batch.toRecordBatch) (listParts tableDir) order :=
    written.imp fun partDir batch made => selectedRows_eq_answer distinct columns means made _
  have amounts : (listParts tableDir).map amount = order.map fun batch =>
      (answer (selectNames items) w batch.toRecordBatch).length :=
    map_eq_of_forall₂ (same.flip.imp fun _ _ rows => congrArg List.length rows)
  have rows : ((listParts tableDir).flatMap
      (selectedRows lz4 schema p (selectNames items))).Perm (rowAnswers items w batches) :=
    .trans (.of_eq (flatMap_eq_of_forall₂ same)) (perm.flatMap_right _)
  refine ⟨rows, ?_, ?_⟩
  · rw [← rows.length_eq, List.length_flatMap]
  · have counted := congrArg (List.countP fun n => decide (0 < n)) amounts
    rw [List.countP_map, List.countP_map] at counted
    exact counted.trans (perm.countP_eq _)

/-- **How LIMIT bounds a query without aggregation** whose rows are stored for these batches: the
number of rows is that of the law under every schedule exactly in four cases. -/
theorem rowQuery_limited (distinct : schema.Distinct) (nonempty : selectNames items ≠ [])
    (supported : ∀ v ∈ w, v.Supported) {clause : LimitClause} {n : Nat}
    (read : Logical.lowerLimit clause = .ok n) (stored : StoredAs lz4 schema tableDir batches)
    (rows : ∀ batch ∈ batches, 0 < batch.numRows) {workers : Nat} (positive : 0 < workers) :
    QueryYields lz4 schema (rowQuery schema items w (some clause)) tableDir workers
      (BoundsLimit n workers (rowAnswers items w batches)) ∧
    (QueryYields lz4 schema (rowQuery schema items w (some clause)) tableDir workers
      (KeepsLimit n (rowAnswers items w batches)) ↔
    n = 0 ∨ (rowAnswers items w batches).length ≤ n ∨ workers = 1 ∨
      matchingInserts items w batches ≤ 1) := by
  obtain ⟨p, columns, means, reads, ran⟩ := exists_rowRoot distinct nonempty supported
  have filled := stored.filled rows
  have runs := @runSelect_limited schema (rowQuery schema items w none) rfl clause n read _ _
    (ran tableDir)
  obtain ⟨all, total, count⟩ := sum_and_countP_selectedRows distinct
    reads.someColumn means stored
  obtain ⟨base, weight, delivers, capped⟩ := reads.capped filled n
  have room : 0 < channelBound := by decide
  have created : GatherExec.new (listParts tableDir) workers
      (.limit n 0 (rowTree columns p (selectNames items))) = .ok _ :=
    if_neg (Nat.ne_of_gt positive)
  have safe := @ends_of_delivers lz4 _ _ _ _ _ delivers workers
  -- what has been returned in the end is counted by what the consumer has received
  have returns : ∀ events g, GatherExec.run lz4 (.init (listParts tableDir) workers
      (.limit n 0 (rowTree columns p (selectNames items)))) events = some g → g.hungUp = true →
      ∃ returned, RootExec.returned
          ⟨listParts tableDir, .limit n 0 (rowTree columns p (selectNames items)), none⟩ g =
            some (.ok returned) ∧
        (returned.flatMap RecordBatch.rows).Subperm (rowAnswers items w batches) ∧
        (returned.flatMap RecordBatch.rows).length = g.receivedSize resultRows := by
    intro events g steps hungUp
    obtain ⟨returned, received, part, length⟩ := reads.gathers_limited filled steps hungUp
    exact ⟨returned, returned_of_batches rfl received hungUp, part.trans all.subperm, length⟩
  constructor
  · refine ⟨_, _, runs, created, safe, fun events g steps hungUp => ?_⟩
    obtain ⟨returned, same, part, length⟩ := returns events g steps hungUp
    have least := capped.le_received delivers positive steps hungUp
    rw [total] at least
    exact ⟨returned, same, part, length ▸ least,
      length ▸ (capped.received_le delivers steps hungUp).2.1⟩
  · have exactly := capped.received_iff delivers room positive
    rw [total, count] at exactly
    rw [← exactly]
    constructor
    · rintro ⟨root, start, ran', created', _, keeps⟩ events g steps hungUp
      cases runs.symm.trans ran'
      cases created.symm.trans created'
      obtain ⟨returned, same, _, length⟩ := returns events g steps hungUp
      obtain ⟨returned', same', _, law⟩ := keeps events g steps hungUp
      cases same.symm.trans same'
      exact length.symm.trans law
    · intro exact
      refine ⟨_, _, runs, created, safe, fun events g steps hungUp => ?_⟩
      obtain ⟨returned, same, part, length⟩ := returns events g steps hungUp
      exact ⟨returned, same, part, length.trans (exact events g steps hungUp)⟩

end Law

/-- The first row, or so it should be. -/
def limitOne : LimitClause := .limitOffset (some (.value (.number "1"))) none

end TinyOlap
