import TinyOlap.Execution.Aggregation.AggregateRun
import TinyOlap.Execution.Aggregation.AggregateTree

/-!
# Trees as functions of lists

An operator tree says what is made of a list of parts, operator by operator: the scan lists its
granules, and each operator above makes its result of what is below (`ExecutionPlan.results`).
This is how the tree reads, without turns, workers or a channel. Any tree that scans a column,
compares nothing with NULL and aggregates columns that are there makes something of any parts,
and so it runs in a pool as it reads: no schedule makes a worker crash, goes on forever or gets
stuck, and in the end each worker has returned what the tree makes of its parts (`tree_runs`).
-/

set_option autoImplicit false

namespace TinyOlap.Execution

open Library Library.WorkPool Catalog Arrow Storage Physical

/-! ## Predicates without NULL -/

/-- NULL is among the literals of an expression. -/
def namesNull : PhysicalExpr → Bool
  | .literal .null => true
  | .literal (.value _ _) | .column _ => false
  | .compare left _ right | .logical left _ right => namesNull left || namesNull right

theorem evaluateOperand_ne_panic (expr : PhysicalExpr) (batch : RecordBatch) :
    evaluateOperand expr batch ≠ .panic := by
  cases expr with
  | column name =>
      refine Outcome.bind_ne_panic (Outcome.mapErr_ne_panic (Outcome.ofOption_ne_panic _ _))
        fun idx found => ?_
      have position := Outcome.ofOption_eq_ok.mp (Outcome.mapErr_eq_ok.mp found)
      obtain ⟨inside, _⟩ := List.findIdx?_eq_some_iff_getElem.mp position
      obtain ⟨a, here, _⟩ := RecordBatch.getElem?_columns (List.getElem?_eq_getElem inside)
      rw [here]
      simp
  | literal lit => simp [evaluateOperand]
  | compare left op right => simp [evaluateOperand]
  | logical left op right => simp [evaluateOperand]

/-- An operand is an array or a scalar, but not NULL. -/
theorem toArrowDatum_ne_panic {expr : PhysicalExpr} (clear : namesNull expr = false)
    {batch : RecordBatch} {cv : ColumnarValue} (evaluated : evaluateOperand expr batch = .ok cv) :
    toArrowDatum cv ≠ .panic := by
  cases expr with
  | column name =>
      obtain ⟨idx, _, evaluated⟩ := Outcome.bind_eq_ok.mp evaluated
      obtain ⟨a, _, evaluated⟩ := Outcome.bind_eq_ok.mp evaluated
      cases evaluated
      simp [toArrowDatum]
  | literal lit =>
      cases evaluated
      cases lit with
      | value t v => simp [toArrowDatum]
      | null => cases clear
  | compare left op right => cases evaluated
  | logical left op right => cases evaluated

/-- **A predicate without NULL does not panic**, whatever the batch. -/
theorem evaluatePredicate_ne_panic {expr : PhysicalExpr} (clear : namesNull expr = false)
    (batch : RecordBatch) : evaluatePredicate expr batch ≠ .panic := by
  induction expr with
  | column name => simp [evaluatePredicate]
  | literal lit => simp [evaluatePredicate]
  | compare left op right _ _ =>
      obtain ⟨clearLeft, clearRight⟩ := Bool.or_eq_false_iff.mp clear
      refine Outcome.bind_ne_panic (evaluateOperand_ne_panic _ _) fun l onLeft => ?_
      refine Outcome.bind_ne_panic (evaluateOperand_ne_panic _ _) fun r onRight => ?_
      refine Outcome.bind_ne_panic (toArrowDatum_ne_panic clearLeft onLeft) fun l' _ => ?_
      refine Outcome.bind_ne_panic (toArrowDatum_ne_panic clearRight onRight) fun r' _ => ?_
      refine Outcome.mapErr_ne_panic ?_
      unfold cmpKernel
      split
      · simp
      · split
        · simp
        · split <;> simp
  | logical left op right ihLeft ihRight =>
      obtain ⟨clearLeft, clearRight⟩ := Bool.or_eq_false_iff.mp clear
      refine Outcome.bind_ne_panic (ihLeft clearLeft) fun l _ => ?_
      refine Outcome.bind_ne_panic (ihRight clearRight) fun r _ => ?_
      refine Outcome.mapErr_ne_panic ?_
      unfold boolKernel
      split
      · simp
      · cases op <;> simp

theorem filterBatch_ne_panic {predicate : PhysicalExpr} (clear : namesNull predicate = false)
    (batch : RecordBatch) : filterBatch predicate batch ≠ .panic := by
  refine Outcome.bind_ne_panic (evaluatePredicate_ne_panic clear batch) fun mask _ => ?_
  refine Outcome.mapErr_ne_panic ?_
  unfold RecordBatch.filter
  split <;> simp

theorem keep_sublist {α : Type} (mask : List Bool) (l : List α) : (keep mask l).Sublist l := by
  induction mask generalizing l with
  | nil => simp [keep]
  | cons b mask ih =>
      cases l with
      | nil => simp [keep]
      | cons a l =>
          cases b with
          | true => simpa [keep] using ih l
          | false => simpa [keep] using (ih l).cons a

theorem numRows_filterBatch {predicate : PhysicalExpr} {batch filtered : RecordBatch}
    (made : filterBatch predicate batch = .ok filtered) : filtered.numRows ≤ batch.numRows := by
  obtain ⟨mask, _, made⟩ := Outcome.bind_eq_ok.mp made
  have made := Outcome.mapErr_eq_ok.mp made
  unfold RecordBatch.filter at made
  split at made
  · cases made
  · cases made
    exact (keep_sublist mask _).length_le.trans (List.length_range).le

/-- A projection fails where a column is missing, but does not panic. -/
theorem projectBatch_ne_panic (projections : List PhysicalExpr) (batch : RecordBatch) :
    projectBatch projections batch ≠ .panic := by
  refine Outcome.bind_ne_panic (Outcome.mapM_ne_panic fun p _ => ?_) fun indices _ => ?_
  · cases p with
    | column name => exact Outcome.mapErr_ne_panic (Outcome.ofOption_ne_panic _ _)
    | literal lit => simp
    | compare left op right => simp
    | logical left op right => simp
  · refine Outcome.mapErr_ne_panic (Outcome.bind_ne_panic
      (Outcome.mapM_ne_panic fun i _ => Outcome.ofOption_ne_panic _ _) fun fields _ =>
      Outcome.bind_ne_panic (Outcome.mapM_ne_panic fun i _ => Outcome.ofOption_ne_panic _ _)
        fun columns _ => ?_)
    unfold RecordBatch.tryNewWithRows
    split
    · simp
    · split
      · split <;> simp
      · simp

theorem numRows_projectBatch {projections : List PhysicalExpr} {batch projected : RecordBatch}
    (made : projectBatch projections batch = .ok projected) :
    projected.numRows = batch.numRows := by
  obtain ⟨indices, _, made⟩ := Outcome.bind_eq_ok.mp made
  obtain ⟨fields, _, made⟩ := Outcome.bind_eq_ok.mp (Outcome.mapErr_eq_ok.mp made)
  obtain ⟨columns, _, made⟩ := Outcome.bind_eq_ok.mp made
  unfold RecordBatch.tryNewWithRows at made
  split at made
  · cases made
  · split at made
    · split at made
      · cases made
        rfl
      · cases made
    · cases made

/-! ## Trees -/

namespace ExecutionPlan

/-- **What a tree makes of a list of parts.** -/
def results (lz4 : Lz4) : ExecutionPlan → List PartDir → Option (List BatchResult)
  | fullScan s, parts => some (parts.flatMap (scanItems lz4 s.columns fun _ => false))
  | zoneMapScan s, parts =>
      some (parts.flatMap (scanItems lz4 s.columns fun partDir =>
        zoneMapCanSkip (loadZoneMap partDir) s.skipPredicate))
  | filter predicate child, parts =>
      (results lz4 child parts).bind ((filterExec predicate).result ())
  | project projections child, parts =>
      (results lz4 child parts).bind ((projectExec projections).result ())
  | limit n emitted child, parts => (results lz4 child parts).bind ((limitExec n).result emitted)
  | hashAggregate s child, parts => (results lz4 child parts).bind (hashAggregateExec.result s)

/-- How many aggregations without GROUP BY there are. Each of them can make a row of none. -/
def wholes : ExecutionPlan → Nat
  | fullScan _ | zoneMapScan _ => 0
  | filter _ child | project _ child | limit _ _ child => wholes child
  | hashAggregate s child => wholes child + if s.groupByFields.isEmpty then 1 else 0

def unlimited : ExecutionPlan → Bool
  | fullScan _ | zoneMapScan _ => true
  | filter _ child | project _ child | hashAggregate _ child => unlimited child
  | limit .. => false

end ExecutionPlan

/-- A scan as it is built, of columns of the table, of which there is one. -/
structure ScansSome (schema : TableSchema) (s : FullScanExec) : Prop where
  new : s = .new s.columns (s.columns.map Field.ofColumn)
  nonempty : s.columns ≠ []
  known : ∀ c ∈ s.columns, c ∈ schema.columns

/-- An aggregation as it is built, whose columns are among the fields. -/
structure Fed (fields : List Field) (s : AggregateExec) : Prop where
  new : s = HashAggregateExec.new s.accumulators s.groupByFields
  fresh : ∀ acc ∈ s.accumulators, acc.bare = acc
  grouped : ∀ f ∈ s.groupByFields, Accumulator.FieldOf fields f.name f.dataType
  reads : ∀ acc ∈ s.accumulators, acc.ReadsFrom fields
  some : s.groupByFields ≠ [] ∨ s.accumulators ≠ []

/-- **A tree that runs**: it scans a column, compares nothing with NULL, and aggregates columns
that are there. -/
def ExecutionPlan.Sound (schema : TableSchema) : ExecutionPlan → Prop
  | .fullScan s => ScansSome schema s
  | .zoneMapScan s => ScansSome schema s.toFullScanExec
  | .filter predicate child => namesNull predicate = false ∧ child.Sound schema
  | .project _ child | .limit _ _ child => child.Sound schema
  | .hashAggregate s child => Fed child.outputFields s ∧ child.Sound schema

/-- How many rows some parts have. -/
def storedRows (lz4 : Lz4) (schema : TableSchema) (parts : List PartDir) : Nat :=
  (parts.flatMap (partRows lz4 schema)).length

section Results

variable {lz4 : Lz4} {schema : TableSchema} {columns : List ColumnSchema}
  {parts handed : List PartDir} {partDir : PartDir} {fields : List Field}
  {items : List BatchResult}

/-! ## Operators on results -/

/-- An operator that answers each result with at most one, which has no more rows, and ends when
the results do. -/
theorem result_of_answers {X : Type} {op : Operator X BatchResult BatchResult}
    {fields' : List Field}
    (answers : ∀ x i, HasFields fields i → (∃ y, op.item x i = .again y) ∨
      ∃ k y, op.item x i = .ret (some k) y ∧ HasFields fields' k ∧ resultRows k ≤ resultRows i)
    (last : ∀ x, ∃ y, op.last x = .ret none y) (has : ∀ i ∈ items, HasFields fields i) (x : X) :
    ∃ all, op.result x items = some all ∧ (∀ i ∈ all, HasFields fields' i) ∧
      rowCount all ≤ rowCount items := by
  have rule := @Operator.exists_result _ _ _ op
    (fun _ rest _ => ∀ i ∈ rest, HasFields fields i) (HasFields fields') resultRows resultRows
    ?_ (fun _ x _ _ => .inl (last x)) 0 items x has
  · simpa [rowCount] using rule
  · intro inside i rest x has _
    have later : ∀ i ∈ rest, HasFields fields i := fun j member => has j (by simp [member])
    rcases answers x i (has i (by simp)) with ⟨y, answer⟩ | ⟨k, y, answer, typed, fewer⟩
    · exact .inl ⟨y, answer, later⟩
    · exact .inr ⟨k, y, inside, answer, typed, later, by omega⟩

theorem result_filter {predicate : PhysicalExpr} (clear : namesNull predicate = false)
    (has : ∀ i ∈ items, HasFields fields i) :
    ∃ all, (filterExec predicate).result () items = some all ∧
      (∀ i ∈ all, HasFields fields i) ∧ rowCount all ≤ rowCount items := by
  refine result_of_answers (fun x i typed => ?_) (fun _ => ⟨_, rfl⟩) has ()
  cases i with
  | error e => exact .inr ⟨_, _, rfl, hasFields_error fields e, Nat.le_refl _⟩
  | ok batch =>
      simp only [filterExec]
      cases made : filterBatch predicate batch with
      | ok filtered =>
          dsimp only
          split
          · refine .inr ⟨_, _, rfl, fun b same => ?_, numRows_filterBatch made⟩
            cases same
            exact (fields_of_filterBatch made).trans (typed batch rfl)
          · exact .inl ⟨_, rfl⟩
      | err e => exact .inr ⟨_, _, rfl, hasFields_error fields e, Nat.zero_le _⟩
      | panic => exact (filterBatch_ne_panic clear batch made).elim

theorem result_project (projections : List PhysicalExpr) (has : ∀ i ∈ items, HasFields fields i) :
    ∃ all, (projectExec projections).result () items = some all ∧
      (∀ i ∈ all, HasFields (projections.filterMap (projectedField fields)) i) ∧
      rowCount all ≤ rowCount items := by
  refine result_of_answers (fun x i typed => ?_) (fun _ => ⟨_, rfl⟩) has ()
  cases i with
  | error e => exact .inr ⟨_, _, rfl, hasFields_error _ e, Nat.le_refl _⟩
  | ok batch =>
      simp only [projectExec]
      cases made : projectBatch projections batch with
      | ok projected =>
          refine .inr ⟨_, _, rfl, fun b same => ?_, (numRows_projectBatch made).le⟩
          cases same
          rw [fields_of_projectBatch made, typed batch rfl]
      | err e => exact .inr ⟨_, _, rfl, hasFields_error _ e, Nat.zero_le _⟩
      | panic => exact (projectBatch_ne_panic projections batch made).elim

theorem result_limit (limit emitted : Nat) (has : ∀ i ∈ items, HasFields fields i) :
    ∃ all, (limitExec limit).result emitted items = some all ∧
      (∀ i ∈ all, HasFields fields i) ∧ rowCount all ≤ rowCount items := by
  refine result_of_answers (fun x i typed => ?_) (fun _ => ⟨_, rfl⟩) has emitted
  cases i with
  | error e => exact .inr ⟨_, _, rfl, hasFields_error fields e, Nat.le_refl _⟩
  | ok batch =>
      simp only [limitExec]
      split
      · exact .inr ⟨_, _, rfl, typed, Nat.le_refl _⟩
      · refine .inr ⟨_, _, rfl, fun b same => ?_, ?_⟩
        · cases same
          exact typed batch rfl
        · simp only [resultRows, RecordBatch.slice]
          omega

theorem result_aggregate {s : AggregateExec} (fed : Fed fields s)
    (has : ∀ i ∈ items, HasFields fields i) (few : rowCount items ≤ maxGroups) :
    ∃ all, hashAggregateExec.result s items = some all ∧
      (∀ i ∈ all, HasFields s.outputSchema i) ∧
      rowCount all ≤ rowCount items + if s.groupByFields.isEmpty then 1 else 0 := by
  have ordered := AggregateExec.inOrder_start fed.fresh .update s.groupByFields
  have planned : ∀ batch : RecordBatch, batch.fields = fields →
      AggregatePhase.update.Planned s.accumulators s.groupByFields batch := by
    rintro batch rfl
    exact ⟨fed.grouped, fed.reads⟩
  have new : AggregatePhase.update.start s.accumulators s.groupByFields = s := fed.new.symm
  rw [new] at ordered
  have going : s.emitted = false := by
    rw [fed.new]
    rfl
  obtain ⟨all, made, typed, rows⟩ :=
    ordered.result going fed.some planned has (by simpa using few)
  refine ⟨all, made, fun i member => ?_, ?_⟩
  · rw [fed.new]
    exact typed i member
  · rw [List.length_nil] at rows
    omega

/-! ## Trees make something of any parts -/

theorem scannable_of_filled (distinct : schema.Distinct) (known : ∀ c ∈ columns, c ∈ schema.columns)
    (filled : Filled lz4 schema partDir) (skip : PartDir → Bool) :
    Scannable lz4 columns skip partDir := by
  intro _
  obtain ⟨batch, written, rows⟩ := filled
  obtain ⟨whole, holds, numRows, _⟩ := exists_partHolds distinct written known
  exact ⟨whole, holds, numRows ▸ rows⟩

/-- A scan returns the rows of a part, or none. -/
theorem result_scanItems (distinct : schema.Distinct) (nonempty : columns ≠ [])
    (known : ∀ c ∈ columns, c ∈ schema.columns) (filled : Filled lz4 schema partDir)
    (skip : PartDir → Bool) :
    (∀ i ∈ scanItems lz4 columns skip partDir, HasFields (columns.map Field.ofColumn) i) ∧
      rowCount (scanItems lz4 columns skip partDir) ≤ (partRows lz4 schema partDir).length := by
  obtain ⟨batch, written, _⟩ := filled
  obtain ⟨read, each, rows⟩ := partBatches_of_written distinct written nonempty known
  have someColumn : schema.columns ≠ [] := by
    obtain ⟨c, member⟩ := List.exists_mem_of_ne_nil _ nonempty
    exact List.ne_nil_of_mem (known c member)
  rw [scanItems, partRows_of_written distinct written someColumn]
  split
  · exact ⟨by simp, Nat.zero_le _⟩
  · rw [read]
    constructor
    · intro i member
      obtain ⟨b, inside, rfl⟩ := List.mem_map.mp member
      intro b' same
      cases same
      exact (each b inside).2
    · have count : rowCount ((partBatches lz4 columns partDir).map .ok) =
          ((partBatches lz4 columns partDir).flatMap RecordBatch.namedRows).length := by
        rw [rowCount, List.map_map, List.length_flatMap]
        exact congrArg List.sum (List.map_congr_left fun b _ => b.namedRows_length.symm)
      rw [count, rows, List.length_map]

theorem result_scan {s : FullScanExec} (distinct : schema.Distinct) (scans : ScansSome schema s)
    (filled : ∀ partDir ∈ parts, Filled lz4 schema partDir) (skip : PartDir → Bool) :
    (∀ i ∈ parts.flatMap (scanItems lz4 s.columns skip), HasFields s.schema i) ∧
      rowCount (parts.flatMap (scanItems lz4 s.columns skip)) ≤ storedRows lz4 schema parts := by
  have schema' : s.schema = s.columns.map Field.ofColumn := by
    rw [scans.new]
    rfl
  induction parts with
  | nil => exact ⟨by simp, Nat.zero_le _⟩
  | cons partDir rest ih =>
      obtain ⟨typed, fewer⟩ := result_scanItems distinct scans.nonempty scans.known
        (filled partDir (by simp)) skip
      obtain ⟨later, less⟩ := ih fun partDir member => filled partDir (by simp [member])
      constructor
      · intro i member
        rw [List.flatMap_cons] at member
        rcases List.mem_append.mp member with here | there
        · rw [schema']
          exact typed i here
        · exact later i there
      · rw [storedRows] at less ⊢
        rw [rowCount] at fewer less ⊢
        rw [List.flatMap_cons, List.flatMap_cons, List.map_append, List.sum_append,
          List.length_append]
        exact Nat.add_le_add fewer less

/-- **A sound tree makes something of any parts**: batches of one kind and errors, with no more
rows than the parts have, but for those that aggregations without GROUP BY make of none. -/
theorem ExecutionPlan.Sound.exists_results {tree : ExecutionPlan} (distinct : schema.Distinct)
    (sound : tree.Sound schema) (filled : ∀ partDir ∈ parts, Filled lz4 schema partDir)
    (few : tree.wholes + storedRows lz4 schema parts ≤ maxGroups) :
    ∃ items, tree.results lz4 parts = some items ∧
      (∀ i ∈ items, HasFields tree.outputFields i) ∧
      rowCount items ≤ tree.wholes + storedRows lz4 schema parts := by
  induction tree with
  | fullScan s =>
      obtain ⟨typed, fewer⟩ := result_scan distinct sound filled fun _ => false
      exact ⟨_, rfl, typed, fewer.trans (Nat.le_add_left _ _)⟩
  | zoneMapScan s =>
      obtain ⟨typed, fewer⟩ := result_scan distinct sound filled fun partDir =>
        zoneMapCanSkip (loadZoneMap partDir) s.skipPredicate
      exact ⟨_, rfl, typed, fewer.trans (Nat.le_add_left _ _)⟩
  | filter predicate child ih =>
      obtain ⟨items, below, typed, fewer⟩ := ih sound.2 few
      obtain ⟨all, made, typed', fewer'⟩ := result_filter sound.1 typed
      exact ⟨all, by rw [results, below]; exact made, typed', fewer'.trans fewer⟩
  | project projections child ih =>
      obtain ⟨items, below, typed, fewer⟩ := ih sound few
      obtain ⟨all, made, typed', fewer'⟩ := result_project projections typed
      exact ⟨all, by rw [results, below]; exact made, typed', fewer'.trans fewer⟩
  | limit limit emitted child ih =>
      obtain ⟨items, below, typed, fewer⟩ := ih sound few
      obtain ⟨all, made, typed', fewer'⟩ := result_limit limit emitted typed
      exact ⟨all, by rw [results, below]; exact made, typed', fewer'.trans fewer⟩
  | hashAggregate s child ih =>
      rw [wholes] at few ⊢
      obtain ⟨items, below, typed, fewer⟩ := ih sound.2 (by omega)
      obtain ⟨all, made, typed', fewer'⟩ := result_aggregate sound.1 typed (by omega)
      exact ⟨all, by rw [results, below]; exact made, typed', by omega⟩

/-! ## Trees deliver what they make -/

theorem storedRows_le (part : handed.Sublist parts) :
    storedRows lz4 schema handed ≤ storedRows lz4 schema parts :=
  (part.flatMap _).length_le

/-- An operator on top of a tree that delivers what it makes does so too. -/
theorem delivers_onTop {X : Type} {op : Operator X BatchResult BatchResult} {x₀ : X}
    {wrap : X → ExecutionPlan → ExecutionPlan} {child : ExecutionPlan} {base : Nat}
    {weight : PartDir → Nat}
    (delivers : Delivers (ExecutionPlan.act lz4) child parts
      (fun handed => (child.results lz4 handed).getD []) base weight)
    (defined : ∀ handed, handed.Sublist parts → ∃ items all, child.results lz4 handed = some items ∧
      op.result x₀ items = some all)
    (reads : ∀ handed, (wrap x₀ child).results lz4 handed =
      (child.results lz4 handed).bind (op.result x₀))
    (acts : ∀ x s, ExecutionPlan.act lz4 (wrap x s) =
      op.onTop (ExecutionPlan.act lz4 s) wrap x s) :
    Delivers (ExecutionPlan.act lz4) (wrap x₀ child) parts
        (fun handed => ((wrap x₀ child).results lz4 handed).getD []) (base + 1) weight ∧
      ((∀ pulled y out, op.feed x₀ pulled = some (y, out) → op.gate y = false) →
        Exhausts (ExecutionPlan.act lz4) child parts →
        Exhausts (ExecutionPlan.act lz4) (wrap x₀ child) parts) := by
  have makes : ∀ handed, handed.Sublist parts →
      op.result x₀ ((child.results lz4 handed).getD []) =
        some (((wrap x₀ child).results lz4 handed).getD []) := by
    intro handed part
    obtain ⟨items, all, below, made⟩ := defined handed part
    rw [reads, below, Option.getD_some, Option.bind_some, made, Option.getD_some]
  exact ⟨delivers.operator makes acts, fun pulls => Exhausts.operator delivers makes acts pulls⟩

/-- **A sound tree delivers what it makes.** It finishes only when all parts have been handed
out, unless a LIMIT has been reached. -/
theorem ExecutionPlan.Sound.delivers {tree : ExecutionPlan} (distinct : schema.Distinct)
    (sound : tree.Sound schema) (filled : ∀ partDir ∈ parts, Filled lz4 schema partDir)
    (few : tree.wholes + storedRows lz4 schema parts ≤ maxGroups) :
    ∃ base weight, Delivers (ExecutionPlan.act lz4) tree parts
        (fun handed => (tree.results lz4 handed).getD []) base weight ∧
      (tree.unlimited = true → Exhausts (ExecutionPlan.act lz4) tree parts) := by
  have scans : ∀ {s : FullScanExec} (predicate : Option PhysicalExpr), ScansSome schema s →
      ∃ base weight, Delivers (ExecutionPlan.act lz4) (scanPlan s.columns predicate) parts
          (List.flatMap (scanItems lz4 s.columns (leavesOut predicate))) base weight ∧
        Exhausts (ExecutionPlan.act lz4) (scanPlan s.columns predicate) parts := by
    intro s predicate scans
    have scannable : ∀ partDir ∈ parts, Scannable lz4 s.columns (leavesOut predicate) partDir :=
      fun partDir member => scannable_of_filled distinct scans.known (filled partDir member) _
    exact ⟨_, _, delivers_scanPlan scans.nonempty scannable,
      exhausts_scanPlan scans.nonempty scannable⟩
  have onTop : ∀ {X : Type} {op : Operator X BatchResult BatchResult} {x₀ : X}
      {wrap : X → ExecutionPlan → ExecutionPlan} {child : ExecutionPlan},
      child.Sound schema → child.wholes ≤ (wrap x₀ child).wholes → (wrap x₀ child).Sound schema →
      (wrap x₀ child).wholes + storedRows lz4 schema parts ≤ maxGroups →
      (∀ handed, (wrap x₀ child).results lz4 handed =
        (child.results lz4 handed).bind (op.result x₀)) →
      ∀ handed, handed.Sublist parts → ∃ items all, child.results lz4 handed = some items ∧
        op.result x₀ items = some all := by
    intro X op x₀ wrap child below more sound few reads handed part
    have inside : ∀ partDir ∈ handed, Filled lz4 schema partDir := fun partDir member =>
      filled partDir (part.subset member)
    have less := @storedRows_le lz4 schema _ _ part
    obtain ⟨items, made, _⟩ := below.exists_results distinct inside (by omega)
    obtain ⟨all, made', _⟩ := sound.exists_results distinct inside (by omega)
    rw [reads, made] at made'
    exact ⟨items, all, made, made'⟩
  induction tree with
  | fullScan s =>
      obtain ⟨base, weight, delivers, exhausts⟩ := scans none sound
      have new : ExecutionPlan.fullScan s = scanPlan s.columns none :=
        congrArg ExecutionPlan.fullScan sound.new
      rw [new]
      exact ⟨base, weight, delivers, fun _ => exhausts⟩
  | zoneMapScan s =>
      obtain ⟨base, weight, delivers, exhausts⟩ := scans (some s.skipPredicate) sound
      have new : ExecutionPlan.zoneMapScan s = scanPlan s.columns (some s.skipPredicate) := by
        obtain ⟨scan, predicate⟩ := s
        exact congrArg (fun scan => ExecutionPlan.zoneMapScan ⟨scan, predicate⟩) sound.new
      rw [new]
      exact ⟨base, weight, delivers, fun _ => exhausts⟩
  | filter predicate child ih =>
      obtain ⟨base, weight, delivers, exhausts⟩ := ih sound.2 few
      have reads : ∀ handed, (ExecutionPlan.filter predicate child).results lz4 handed =
        (child.results lz4 handed).bind ((filterExec predicate).result ()) := fun _ => rfl
      obtain ⟨delivers', exhausts'⟩ := @delivers_onTop lz4 parts Unit (filterExec predicate) ()
        (fun _ c => .filter predicate c) child base weight delivers
        (@onTop Unit _ () (fun _ c => .filter predicate c) child sound.2 (Nat.le_refl _) sound few
          reads) reads fun _ _ => rfl
      exact ⟨_, _, delivers', fun all => exhausts' (fun _ _ _ _ => rfl) (exhausts all)⟩
  | project projections child ih =>
      obtain ⟨base, weight, delivers, exhausts⟩ := ih sound few
      have reads : ∀ handed, (ExecutionPlan.project projections child).results lz4 handed =
        (child.results lz4 handed).bind ((projectExec projections).result ()) := fun _ => rfl
      obtain ⟨delivers', exhausts'⟩ := @delivers_onTop lz4 parts Unit (projectExec projections) ()
        (fun _ c => .project projections c) child base weight delivers
        (@onTop Unit _ () (fun _ c => .project projections c) child sound (Nat.le_refl _) sound few
          reads) reads fun _ _ => rfl
      exact ⟨_, _, delivers', fun all => exhausts' (fun _ _ _ _ => rfl) (exhausts all)⟩
  | limit limit emitted child ih =>
      obtain ⟨base, weight, delivers, _⟩ := ih sound few
      have reads : ∀ handed, (ExecutionPlan.limit limit emitted child).results lz4 handed =
        (child.results lz4 handed).bind ((limitExec limit).result emitted) := fun _ => rfl
      obtain ⟨delivers', _⟩ := @delivers_onTop lz4 parts Nat (limitExec limit) emitted
        (fun emitted c => .limit limit emitted c) child base weight delivers
        (@onTop Nat _ emitted (fun emitted c => .limit limit emitted c) child sound (Nat.le_refl _)
          sound few reads) reads fun _ _ => rfl
      exact ⟨_, _, delivers', fun all => by cases all⟩
  | hashAggregate s child ih =>
      have more : child.wholes ≤ (ExecutionPlan.hashAggregate s child).wholes :=
        Nat.le_add_right _ _
      obtain ⟨base, weight, delivers, exhausts⟩ := ih sound.2 (by omega)
      have reads : ∀ handed, (ExecutionPlan.hashAggregate s child).results lz4 handed =
        (child.results lz4 handed).bind (hashAggregateExec.result s) := fun _ => rfl
      obtain ⟨delivers', exhausts'⟩ := @delivers_onTop lz4 parts AggregateExec hashAggregateExec s
        .hashAggregate child base weight delivers
        (@onTop AggregateExec _ s .hashAggregate child sound.2 more sound few reads) reads
        fun _ _ => rfl
      have going : s.emitted = false := by
        rw [sound.1.new]
        rfl
      exact ⟨_, _, delivers', fun all => exhausts'
        (fun _ _ _ fed => AggregateExec.feed_going going fed) (exhausts all)⟩

/-- **The workers run the tree as it reads.** No schedule makes a worker crash, goes on forever or
gets stuck. When a schedule has ended, the parts that were handed out have each gone to one
worker, all parts have been unless there is a LIMIT, and each worker has returned what the tree
makes of its parts. -/
structure RunsAsItReads (lz4 : Lz4) (tree : ExecutionPlan) (parts : List PartDir) (workers : Nat)
    (start : GatherExec) : Prop where
  ends : ∃ bound, ∀ events g, start.run lz4 events = some g → .crashed ∉ g.workers ∧
    events.length ≤ bound ∧ (g.hungUp = false → ∃ event g', g.run lz4 [event] = some g')
  returns : ∀ events g, start.run lz4 events = some g → g.hungUp = true →
    ∃ log : List (Nat × PartDir), log.map Prod.snd <+: parts ∧
      (tree.unlimited = true → log.map Prod.snd = parts) ∧
      (∀ entry ∈ log, entry.1 < workers) ∧ (∀ entry ∈ g.received, entry.1 < workers) ∧
      ∀ w < workers, tree.results lz4 (ofWorker w log) = some (ofWorker w g.received)

theorem ExecutionPlan.Sound.runs {tree : ExecutionPlan} (distinct : schema.Distinct)
    (sound : tree.Sound schema) (filled : ∀ partDir ∈ parts, Filled lz4 schema partDir)
    (few : tree.wholes + storedRows lz4 schema parts ≤ maxGroups) {workers : Nat}
    {start : GatherExec} (created : GatherExec.new parts workers tree = .ok start) :
    RunsAsItReads lz4 tree parts workers start := by
  unfold GatherExec.new at created
  split at created
  · cases created
  · rename_i positive
    cases created
    obtain ⟨base, weight, delivers, exhausts⟩ := sound.delivers distinct filled few
    refine ⟨ends_of_delivers delivers workers, fun events g ran hungUp => ?_⟩
    obtain ⟨log, logWorks, logWorkers, sentWorkers, each, all⟩ :=
      received_of_hungUp delivers ran hungUp
    have part : log.map Prod.snd <+: parts := logWorks ▸ List.take_prefix _ _
    refine ⟨log, part, fun unlimited => all (exhausts unlimited) (Nat.pos_of_ne_zero positive),
      logWorkers, sentWorkers, fun w inside => ?_⟩
    have share : (ofWorker w log).Sublist parts := (ofWorker_sublist w log).trans part.sublist
    have less := @storedRows_le lz4 schema _ _ share
    obtain ⟨items, made, _⟩ := sound.exists_results distinct
      (fun partDir member => filled partDir (share.subset member)) (by omega)
    rw [each w inside, made, Option.getD_some]

end Results

/-- **Trees run as they read**: any tree of the builder's operators, nested in any way, that scans a
column, compares nothing with NULL and aggregates columns that are there, on any parts that
accepted inserts have filled, with few enough rows for the indices of the groups. -/
theorem tree_runs (lz4 : Lz4) (schema : TableSchema) (distinct : schema.Distinct)
    (tree : ExecutionPlan) (sound : tree.Sound schema) (parts : List PartDir)
    (filled : ∀ partDir ∈ parts, Filled lz4 schema partDir)
    (few : tree.wholes + storedRows lz4 schema parts ≤ maxGroups) (workers : Nat)
    (start : GatherExec) (created : GatherExec.new parts workers tree = .ok start) :
    RunsAsItReads lz4 tree parts workers start :=
  sound.runs distinct filled few created

/-- The first row of each worker is counted. -/
def countFirst : ExecutionPlan :=
  .hashAggregate (HashAggregateExec.new [.count "a" []] [])
    (.limit 1 0 (scanPlan [⟨"a", .int .i8⟩] none))

/-- The tree runs on two parts of two rows each. -/
theorem tree_runs_two : ∃ partDir start,
    Filled Lz4.literals ⟨"t", [⟨"a", .int .i8⟩]⟩ partDir ∧
    GatherExec.new [partDir, partDir] 2 countFirst = .ok start ∧
    RunsAsItReads Lz4.literals countFirst [partDir, partDir] 2 start := by
  let schema : TableSchema := ⟨"t", [⟨"a", .int .i8⟩]⟩
  obtain ⟨partDir, batch, written, two⟩ := exists_written_two
  have filled : Filled Lz4.literals schema partDir := ⟨batch, written, by omega⟩
  have rows : partRows Lz4.literals schema partDir = tableRows schema batch :=
    partRows_of_written (by decide) written (by decide)
  refine ⟨partDir, _, filled, rfl, ?_⟩
  refine tree_runs Lz4.literals schema (by decide) countFirst ?_ [partDir, partDir] ?_ ?_ 2 _ rfl
  · refine ⟨⟨rfl, ?_, ?_, ?_, .inr (by simp [HashAggregateExec.new])⟩, rfl,
      by simp [FullScanExec.new], fun c member => member⟩
    · intro acc member
      cases List.mem_singleton.mp member
      rfl
    · intro f member
      cases member
    · intro acc member
      cases List.mem_singleton.mp member
      trivial
  · simp [filled]
  · have count : storedRows Lz4.literals schema [partDir, partDir] = 4 := by
      simp [storedRows, rows, tableRows, two]
    rw [count]
    decide

end TinyOlap.Execution
