import TinyOlap.Execution.TreeMeaning
import TinyOlap.Physical.Optimizer

/-!
# The physical optimizer keeps what a tree means

The optimizer rewrites nodes, and both what a tree makes and what it means are put together from
its nodes, so it is enough that a rule keeps this of the node that it changes (`rewrite_improves`).

The meaning is kept as it is: a filter that is always true keeps all rows, and a part that a scan
leaves out has no row of which the predicate above holds. What the tree makes is kept up to its
first error. A filter that is always true cannot be evaluated, so the plain tree returns an error
for the first batch, where the optimized tree returns the batch. A filter on a scan that leaves out
parts does not return the errors of a predicate that cannot be evaluated there.
-/

set_option autoImplicit false

namespace TinyOlap.Execution

open Library Library.WorkPool Catalog Arrow Storage Physical

/-! ## Parts without matching rows -/

/-- What a restricted row has, the row has too. -/
theorem lookup_of_restrictRow {names : List String} {row : NamedRow}
    (present : HasNames names row) {name : String} {v : Value}
    (found : (restrictRow names row).lookup name = some v) : row.lookup name = some v := by
  by_cases inside : name ∈ names
  · rwa [restrictRow_lookup present inside] at found
  · have none : (restrictRow names row).lookup name = none := by
      refine List.lookup_eq_none_iff.mpr fun entry member => ?_
      have known := (List.of_mem_zip member).1
      simp only [bne_iff_ne, ne_eq]
      rintro rfl
      exact inside known
    rw [none] at found
    cases found

/-- A predicate has no negation, so it holds of a row if it does so of fewer of its cells. -/
theorem holds_of_restrictRow {names : List String} {row : NamedRow}
    (present : HasNames names row) {p : PhysicalExpr}
    (holdsHere : holds (restrictRow names row) p = true) : holds row p = true := by
  have operands : ∀ (e : PhysicalExpr) {v : Value},
      operand (restrictRow names row) e = some v → operand row e = some v := by
    intro e v here
    cases e with
    | column name => exact lookup_of_restrictRow present here
    | literal lit => cases lit <;> exact here
    | compare left op right => cases here
    | logical left op right => cases here
  induction p with
  | column name =>
      simp only [holds, beq_iff_eq] at holdsHere ⊢
      exact lookup_of_restrictRow present holdsHere
  | literal lit => exact holdsHere
  | compare left op right _ _ =>
      unfold holds at holdsHere ⊢
      split at holdsHere
      · rename_i a b onLeft onRight
        rw [operands left onLeft, operands right onRight]
        exact holdsHere
      · cases holdsHere
  | logical left op right ihLeft ihRight =>
      cases op with
      | and =>
          obtain ⟨onLeft, onRight⟩ := (Bool.and_eq_true _ _).mp holdsHere
          exact (Bool.and_eq_true _ _).mpr ⟨ihLeft onLeft, ihRight onRight⟩
      | or =>
          rcases (Bool.or_eq_true _ _).mp holdsHere with onLeft | onRight
          · exact (Bool.or_eq_true _ _).mpr (.inl (ihLeft onLeft))
          · exact (Bool.or_eq_true _ _).mpr (.inr (ihRight onRight))

/-- A predicate without a column never causes a skip. -/
theorem zoneMapCanSkip_of_no_column {zoneMap : ZoneMap} {p : PhysicalExpr}
    (noColumn : hasColumn p = false) : zoneMapCanSkip zoneMap p = false := by
  induction p with
  | column name => rfl
  | literal lit => rfl
  | compare left op right _ _ =>
      match left, right with
      | .column name, right => cases noColumn
      | .literal _, _ | .compare .., _ | .logical .., _ => rfl
  | logical left op right ihLeft ihRight =>
      obtain ⟨noLeft, noRight⟩ := Bool.or_eq_false_iff.mp noColumn
      cases op <;> simp [zoneMapCanSkip, ihLeft noLeft, ihRight noRight]

/-- **The predicate of a filter holds of no row of a part that is left out.** -/
theorem not_holds_of_leftOut {lz4 : Lz4} {schema : TableSchema} {columns : List ColumnSchema}
    {partDir : PartDir} {predicate : PhysicalExpr} {b : RecordBatch}
    (distinct : schema.Distinct) (nonempty : columns ≠ [])
    (known : ∀ c ∈ columns, c ∈ schema.columns) (filled : Filled lz4 schema partDir)
    (noFloat : ¬ ComparesFloat schema predicate)
    (skips : zoneMapCanSkip (loadZoneMap partDir) predicate = true)
    (member : b ∈ partBatches lz4 columns partDir) :
    ∀ row ∈ b.namedRows, holds row predicate = false := by
  obtain ⟨batch, written, _⟩ := filled
  obtain ⟨_, _, rows⟩ := partBatches_of_written distinct written nonempty known
  intro row inside
  have read : row ∈ (tableRows schema batch).map (restrictRow (columns.map ColumnSchema.name)) :=
    rows ▸ List.mem_flatMap.mpr ⟨b, member, inside⟩
  obtain ⟨stored, inTable, rfl⟩ := List.mem_map.mp read
  have present : HasNames (columns.map ColumnSchema.name) stored := fun name inside =>
    hasNames_tableRows written inTable name (List.map_subset _ known inside)
  have fails := holds_of_zoneMapCanSkip distinct written.toZonedPart noFloat skips stored inTable
  by_contra held
  rw [holds_of_restrictRow present (by simpa using held)] at fails
  cases fails

/-- A filter keeps no row of a batch of which its predicate does not hold, if this has a column. -/
theorem numRows_of_not_holds {predicate : PhysicalExpr} {b filtered : RecordBatch}
    (column : hasColumn predicate = true)
    (fails : ∀ row ∈ b.namedRows, holds row predicate = false)
    (makes : filterBatch predicate b = .ok filtered) : filtered.numRows = 0 := by
  obtain ⟨mask, evaluated, _⟩ := Outcome.bind_eq_ok.mp makes
  rcases mask_of_evaluatePredicate evaluated with ⟨_, rfl⟩ | ⟨noColumn, _⟩
  · obtain ⟨filtered', made, _, kept⟩ := filterBatch_eq evaluated
    cases made.symm.trans makes
    rw [← RecordBatch.namedRows_length, kept, List.length_eq_zero_iff, List.filter_eq_nil_iff]
    intro row inside
    rw [fails row inside]
    exact Bool.false_ne_true
  · rw [column] at noColumn
    cases noColumn

/-! ## Filters on scans -/

/-- **A filter makes the same of a scan that leaves out parts**, but for errors. -/
theorem agrees_of_leftOut {lz4 : Lz4} {schema : TableSchema} {columns : List ColumnSchema}
    {parts : List PartDir} {predicate : PhysicalExpr} (distinct : schema.Distinct)
    (nonempty : columns ≠ []) (known : ∀ c ∈ columns, c ∈ schema.columns)
    (filled : ∀ partDir ∈ parts, Filled lz4 schema partDir)
    (noFloat : ¬ ComparesFloat schema predicate) :
    AgreesUntil IsError
      ((parts.flatMap (scanItems lz4 columns fun _ => false)).filterMap (filterAnswer predicate))
      ((parts.flatMap (scanItems lz4 columns fun partDir =>
        zoneMapCanSkip (loadZoneMap partDir) predicate)).filterMap (filterAnswer predicate)) := by
  induction parts with
  | nil => exact .refl _
  | cons partDir rest ih =>
      have here := filled partDir (by simp)
      have later := ih fun partDir member => filled partDir (by simp [member])
      rw [List.flatMap_cons, List.flatMap_cons, List.filterMap_append, List.filterMap_append]
      cases skips : zoneMapCanSkip (loadZoneMap partDir) predicate with
      | false =>
          have same : scanItems lz4 columns (fun partDir =>
              zoneMapCanSkip (loadZoneMap partDir) predicate) partDir =
                scanItems lz4 columns (fun _ => false) partDir := by
            simp [scanItems, skips]
          exact same ▸ later.append _
      | true =>
          have none : scanItems lz4 columns (fun partDir =>
              zoneMapCanSkip (loadZoneMap partDir) predicate) partDir = [] := by
            simp [scanItems, skips]
          rw [none, List.filterMap_nil, List.nil_append]
          refine later.drop fun answer member => ?_
          obtain ⟨item, read, answered⟩ := List.mem_filterMap.mp member
          obtain ⟨batch, written, _⟩ := id here
          have all := (partBatches_of_written distinct written nonempty known).1
          rw [scanItems, if_neg Bool.false_ne_true, all] at read
          obtain ⟨b, inside, rfl⟩ := List.mem_map.mp read
          rw [filterAnswer] at answered
          split at answered
          · rename_i filtered makes
            have column : hasColumn predicate = true := by
              by_contra noColumn
              rw [zoneMapCanSkip_of_no_column (by simpa using noColumn)] at skips
              cases skips
            rw [numRows_of_not_holds column
              (not_holds_of_leftOut distinct nonempty known here noFloat skips inside) makes]
              at answered
            cases answered
          · cases answered
            exact ⟨_, rfl⟩
          · cases answered

/-- **A filter keeps the same of a scan that leaves out parts.** -/
theorem held_of_leftOut {lz4 : Lz4} {schema : TableSchema} {columns : List ColumnSchema}
    {parts : List PartDir} {predicate : PhysicalExpr} (distinct : schema.Distinct)
    (nonempty : columns ≠ []) (known : ∀ c ∈ columns, c ∈ schema.columns)
    (filled : ∀ partDir ∈ parts, Filled lz4 schema partDir)
    (noFloat : ¬ ComparesFloat schema predicate) :
    (parts.flatMap (scanItems lz4 columns fun partDir =>
        zoneMapCanSkip (loadZoneMap partDir) predicate)).filterMap (heldAnswer predicate) =
      (parts.flatMap (scanItems lz4 columns fun _ => false)).filterMap (heldAnswer predicate) := by
  rw [List.filterMap_flatMap, List.filterMap_flatMap]
  refine List.flatMap_congr fun partDir member => ?_
  have here := filled partDir member
  cases skips : zoneMapCanSkip (loadZoneMap partDir) predicate with
  | false => simp [scanItems, skips]
  | true =>
      obtain ⟨batch, written, _⟩ := id here
      have all := (partBatches_of_written distinct written nonempty known).1
      rw [scanItems, if_pos skips, scanItems, if_neg Bool.false_ne_true, all, List.filterMap_nil,
        List.filterMap_map]
      refine (List.filterMap_eq_nil_iff.mpr fun b inside => ?_).symm
      have none := heldBatch_eq_none
        (not_holds_of_leftOut distinct nonempty known here noFloat skips inside)
      simp only [Function.comp_apply, heldAnswer, none, Option.map_none]

/-! ## Better trees -/

/-- The other tree is as sound, makes the same of any parts up to the first error, and means the
same. -/
structure Improves (lz4 : Lz4) (schema : TableSchema) (tree tree' : ExecutionPlan) : Prop where
  fields : tree'.outputFields = tree.outputFields
  wholes : tree'.wholes = tree.wholes
  unlimited : tree'.unlimited = tree.unlimited
  aggregates : tree'.aggregates = tree.aggregates
  sound : tree'.Sound schema
  results : ∀ parts, (∀ partDir ∈ parts, Filled lz4 schema partDir) →
    tree.wholes + storedRows lz4 schema parts ≤ maxGroups →
    ∃ items items', tree.results lz4 parts = some items ∧ tree'.results lz4 parts = some items' ∧
      AgreesUntil IsError items items'
  filters : tree.RowFilters → tree'.RowFilters
  meaning : tree.RowFilters → ∀ parts, (∀ partDir ∈ parts, Filled lz4 schema partDir) →
    tree'.meaning lz4 parts = tree.meaning lz4 parts

/-- What is built of the other plan is better. -/
def PlanImproves (lz4 : Lz4) (schema : TableSchema) (plan plan' : PhysicalPlan) : Prop :=
  ∀ tree, buildInner schema plan = .ok tree → tree.Sound schema →
    ∃ tree', buildInner schema plan' = .ok tree' ∧ Improves lz4 schema tree tree'

/-- The predicates of all filters of a plan have the property. -/
def FiltersBy (property : PhysicalExpr → Prop) : PhysicalPlan → Prop
  | .fullScan .. | .zoneMapScan .. => True
  | .filter predicate input => property predicate ∧ FiltersBy property input
  | .project _ input | .limit _ input | .aggregate _ _ input => FiltersBy property input

section Improve

variable {lz4 : Lz4} {schema : TableSchema} {plan plan' plan'' : PhysicalPlan}
  {tree tree' tree'' child child' : ExecutionPlan}

theorem Improves.refl (distinct : schema.Distinct) (sound : tree.Sound schema) :
    Improves lz4 schema tree tree := by
  refine ⟨rfl, rfl, rfl, rfl, sound, fun parts filled few => ?_, id, fun _ _ _ => rfl⟩
  obtain ⟨items, made, _⟩ := sound.exists_results distinct filled few
  exact ⟨items, items, made, made, .refl items⟩

theorem Improves.trans (first : Improves lz4 schema tree tree')
    (second : Improves lz4 schema tree' tree'') : Improves lz4 schema tree tree'' := by
  refine ⟨second.fields.trans first.fields, second.wholes.trans first.wholes,
    second.unlimited.trans first.unlimited, second.aggregates.trans first.aggregates,
    second.sound, fun parts filled few => ?_, fun filters => second.filters (first.filters filters),
    fun filters parts filled => (second.meaning (first.filters filters) parts filled).trans
      (first.meaning filters parts filled)⟩
  obtain ⟨items, items', made, made', agrees⟩ := first.results parts filled few
  obtain ⟨same, items'', same', made'', agrees'⟩ :=
    second.results parts filled (first.wholes ▸ few)
  cases same'.symm.trans made'
  exact ⟨items, items'', made, made'', agrees.trans agrees'⟩

theorem PlanImproves.refl (distinct : schema.Distinct) (plan : PhysicalPlan) :
    PlanImproves lz4 schema plan plan :=
  fun tree built sound => ⟨tree, built, .refl distinct sound⟩

theorem PlanImproves.trans (first : PlanImproves lz4 schema plan plan')
    (second : PlanImproves lz4 schema plan' plan'') : PlanImproves lz4 schema plan plan'' := by
  intro tree built sound
  obtain ⟨tree', built', improves⟩ := first tree built sound
  obtain ⟨tree'', built'', improves'⟩ := second tree' built' improves.sound
  exact ⟨tree'', built'', improves.trans improves'⟩

/-- A better tree stays better under an operator that hands on errors. -/
theorem Improves.onTop {X : Type} {op : Operator X BatchResult BatchResult} {x : X}
    {wrap : ExecutionPlan → ExecutionPlan} {means : List BatchResult → Option (List BatchResult)}
    (distinct : schema.Distinct) (improves : Improves lz4 schema child child')
    (passes : ∀ x e, ∃ y, op.item x (.error e) = .ret (some (.error e)) y)
    (reads : ∀ c parts, (wrap c).results lz4 parts = (c.results lz4 parts).bind (op.result x))
    (meaning : ∀ c parts, (wrap c).meaning lz4 parts = (c.meaning lz4 parts).bind means)
    (filters : (wrap child).RowFilters →
      child.RowFilters ∧ (child'.RowFilters → (wrap child').RowFilters))
    (aggregates : (wrap child').aggregates = (wrap child).aggregates)
    (fields : (wrap child').outputFields = (wrap child).outputFields)
    (wholes : (wrap child').wholes = (wrap child).wholes)
    (unlimited : (wrap child').unlimited = (wrap child).unlimited)
    (more : child.wholes ≤ (wrap child).wholes) (sound : (wrap child).Sound schema)
    (sound' : (wrap child').Sound schema) : Improves lz4 schema (wrap child) (wrap child') := by
  refine ⟨fields, wholes, unlimited, aggregates, sound', fun parts filled few => ?_,
    fun rowFilters => (filters rowFilters).2 (improves.filters (filters rowFilters).1),
    fun rowFilters parts filled => ?_⟩
  rotate_left
  · rw [meaning, meaning, improves.meaning (filters rowFilters).1 parts filled]
  obtain ⟨made, makes, _⟩ := sound.exists_results distinct filled few
  obtain ⟨made', makes', _⟩ := sound'.exists_results distinct filled (wholes ▸ few)
  obtain ⟨items, items', below, below', agrees⟩ := improves.results parts filled (by omega)
  refine ⟨made, made', makes, makes', ?_⟩
  rw [reads, below, Option.bind_some] at makes
  rw [reads, below', Option.bind_some] at makes'
  exact agrees_result passes agrees makes makes'

/-! ## Better plans -/

theorem PlanImproves.filter (distinct : schema.Distinct) (predicate : PhysicalExpr)
    (improves : PlanImproves lz4 schema plan plan') :
    PlanImproves lz4 schema (.filter predicate plan) (.filter predicate plan') := by
  intro tree built sound
  obtain ⟨child, below, made⟩ := Outcome.bind_eq_ok.mp built
  cases made
  obtain ⟨child', below', better⟩ := improves child below sound.2
  refine ⟨.filter predicate child', by rw [buildInner, below', Outcome.ok_bind], ?_⟩
  exact @Improves.onTop lz4 schema child child' Unit (filterExec predicate) () (.filter predicate)
    (fun items => some (items.filterMap (heldAnswer predicate))) distinct better
    (fun _ _ => ⟨(), rfl⟩) (fun _ _ => rfl) (fun _ _ => Option.map_eq_bind)
    (fun filters => ⟨filters.2.2, fun filters' =>
      ⟨filters.1, better.aggregates.trans filters.2.1, filters'⟩⟩)
    better.aggregates better.fields better.wholes better.unlimited (Nat.le_refl _) sound
    ⟨sound.1, better.sound⟩

theorem PlanImproves.project (distinct : schema.Distinct) (projections : List PhysicalExpr)
    (improves : PlanImproves lz4 schema plan plan') :
    PlanImproves lz4 schema (.project projections plan) (.project projections plan') := by
  intro tree built sound
  obtain ⟨child, below, made⟩ := Outcome.bind_eq_ok.mp built
  cases made
  obtain ⟨child', below', better⟩ := improves child below sound
  refine ⟨.project projections child', by rw [buildInner, below', Outcome.ok_bind], ?_⟩
  have fields : (ExecutionPlan.project projections child').outputFields =
      (ExecutionPlan.project projections child).outputFields := by
    rw [ExecutionPlan.outputFields, better.fields, ExecutionPlan.outputFields]
  exact @Improves.onTop lz4 schema child child' Unit (projectExec projections) ()
    (.project projections) ((projectExec projections).result ()) distinct better
    (fun _ _ => ⟨(), rfl⟩) (fun _ _ => rfl) (fun _ _ => rfl) (fun filters => ⟨filters, id⟩)
    better.aggregates fields better.wholes better.unlimited (Nat.le_refl _) sound better.sound

theorem PlanImproves.limit (distinct : schema.Distinct) (limit : Nat)
    (improves : PlanImproves lz4 schema plan plan') :
    PlanImproves lz4 schema (.limit limit plan) (.limit limit plan') := by
  intro tree built sound
  obtain ⟨child, below, made⟩ := Outcome.bind_eq_ok.mp built
  cases made
  obtain ⟨child', below', better⟩ := improves child below sound
  refine ⟨.limit limit 0 child', by rw [buildInner, below', Outcome.ok_bind], ?_⟩
  exact @Improves.onTop lz4 schema child child' Nat (limitExec limit) 0 (.limit limit 0)
    ((limitExec limit).result 0) distinct better (fun emitted _ => ⟨emitted, rfl⟩)
    (fun _ _ => rfl) (fun _ _ => rfl) (fun filters => ⟨filters, id⟩) better.aggregates
    better.fields better.wholes rfl (Nat.le_refl _) sound better.sound

theorem PlanImproves.aggregate (distinct : schema.Distinct) (groupBy : List PhysicalExpr)
    (aggregates : List AggSpec) (improves : PlanImproves lz4 schema plan plan') :
    PlanImproves lz4 schema (.aggregate groupBy aggregates plan)
      (.aggregate groupBy aggregates plan') := by
  intro tree built sound
  obtain ⟨accumulators, accumulates, built⟩ := Outcome.bind_eq_ok.mp built
  obtain ⟨child, below, built⟩ := Outcome.bind_eq_ok.mp built
  obtain ⟨groupByFields, groups, made⟩ := Outcome.bind_eq_ok.mp built
  cases made
  obtain ⟨child', below', better⟩ := improves child below sound.2
  refine ⟨.hashAggregate (HashAggregateExec.new accumulators groupByFields) child', ?_, ?_⟩
  · rw [buildInner, accumulates, Outcome.ok_bind, below', Outcome.ok_bind, groups, Outcome.ok_bind]
  · have wholes : (ExecutionPlan.hashAggregate (HashAggregateExec.new accumulators groupByFields)
        child').wholes = (ExecutionPlan.hashAggregate
          (HashAggregateExec.new accumulators groupByFields) child).wholes := by
      rw [ExecutionPlan.wholes, better.wholes, ExecutionPlan.wholes]
    exact @Improves.onTop lz4 schema child child' AggregateExec hashAggregateExec _
      (.hashAggregate (HashAggregateExec.new accumulators groupByFields))
      (hashAggregateExec.result (HashAggregateExec.new accumulators groupByFields)) distinct better
      (fun s _ => ⟨s, rfl⟩) (fun _ _ => rfl) (fun _ _ => rfl) (fun filters => ⟨filters, id⟩) rfl
      rfl wholes better.unlimited (Nat.le_add_right _ _) sound
      ⟨better.fields ▸ sound.1, better.sound⟩

/-- **Rewriting makes a plan better** if each node that it makes is better. -/
theorem rewrite_improves {property : PhysicalExpr → Prop} {f : PhysicalPlan → PhysicalPlan}
    (distinct : schema.Distinct)
    (node : ∀ plan, FiltersBy property plan →
      FiltersBy property (f plan) ∧ PlanImproves lz4 schema plan (f plan))
    (filters : FiltersBy property plan) :
    FiltersBy property (rewrite plan f) ∧ PlanImproves lz4 schema plan (rewrite plan f) := by
  induction plan with
  | fullScan table columns => exact node _ filters
  | zoneMapScan table columns predicate => exact node _ filters
  | filter predicate input ih =>
      obtain ⟨kept, improves⟩ := ih filters.2
      obtain ⟨kept', improves'⟩ := node (.filter predicate (rewrite input f)) ⟨filters.1, kept⟩
      exact ⟨kept', (improves.filter distinct predicate).trans improves'⟩
  | project projections input ih =>
      obtain ⟨kept, improves⟩ := ih filters
      obtain ⟨kept', improves'⟩ := node (.project projections (rewrite input f)) kept
      exact ⟨kept', (improves.project distinct projections).trans improves'⟩
  | aggregate groupBy aggregates input ih =>
      obtain ⟨kept, improves⟩ := ih filters
      obtain ⟨kept', improves'⟩ := node (.aggregate groupBy aggregates (rewrite input f)) kept
      exact ⟨kept', (improves.aggregate distinct groupBy aggregates).trans improves'⟩
  | limit limit input ih =>
      obtain ⟨kept, improves⟩ := ih filters
      obtain ⟨kept', improves'⟩ := node (.limit limit (rewrite input f)) kept
      exact ⟨kept', (improves.limit distinct limit).trans improves'⟩

/-! ## The rules -/

/-- A filter that is always true keeps all rows. What it makes are errors only, so any other results
agree with that. -/
theorem planImproves_trueFilter (distinct : schema.Distinct) (input : PhysicalPlan) :
    PlanImproves lz4 schema (.filter (.literal (.value .bool true)) input) input := by
  intro tree built sound
  obtain ⟨child, below, made⟩ := Outcome.bind_eq_ok.mp built
  cases made
  refine ⟨child, below, rfl, rfl, rfl, rfl, sound.2, fun parts filled few => ?_,
    fun filters => filters.2.2, fun filters parts filled => ?_⟩
  · obtain ⟨items, made, _⟩ := sound.2.exists_results distinct filled few
    have filtered : (ExecutionPlan.filter (.literal (.value .bool true)) child).results lz4 parts =
        some (items.filterMap (filterAnswer (.literal (.value .bool true)))) := by
      rw [ExecutionPlan.results, made, Option.bind_some, filterExec_result_of_clear sound.1]
    refine ⟨_, items, filtered, made, ?_⟩
    cases items with
    | nil => exact .refl []
    | cons i rest =>
        cases i with
        | error e => exact .inr ⟨[], .error e, _, .error e :: rest, ⟨e, rfl⟩, rfl, rfl⟩
        | ok batch => exact .inr ⟨[], .error _, _, .ok batch :: rest, ⟨_, rfl⟩, rfl, rfl⟩
  · cases means : child.meaning lz4 parts with
    | none => rw [ExecutionPlan.meaning, means, Option.map_none]
    | some items =>
        have rows := sound.2.hasRow distinct filters.2.1 filled means
        have same : items.filterMap (heldAnswer (.literal (.value .bool true))) = items := by
          refine (List.filterMap_congr fun i member => ?_).trans List.filterMap_some
          cases i with
          | error e => rfl
          | ok batch =>
              have all := heldBatch_eq_self (rows (.ok batch) member batch rfl)
                fun row _ => (rfl : holds row (.literal (.value .bool true)) = true)
              rw [heldAnswer, all, Option.map_some]
        rw [ExecutionPlan.meaning, means, Option.map_some, same]

/-- A scan under a filter may leave out the parts that its predicate skips. -/
theorem planImproves_pushdown (distinct : schema.Distinct) {predicate : PhysicalExpr}
    (noFloat : ¬ ComparesFloat schema predicate) (table : String) (columns : List String) :
    PlanImproves lz4 schema (.filter predicate (.fullScan table columns))
      (.filter predicate (.zoneMapScan table columns predicate)) := by
  intro tree built sound
  obtain ⟨child, below, made⟩ := Outcome.bind_eq_ok.mp built
  cases made
  obtain ⟨found, names, made⟩ := Outcome.bind_eq_ok.mp below
  cases made
  refine ⟨.filter predicate (.zoneMapScan (.new found (found.map Field.ofColumn) predicate)), ?_,
    rfl, rfl, rfl, rfl, sound, fun parts filled few => ?_, id, fun _ parts filled => ?_⟩
  · rw [buildInner, buildInner, constructZoneMapScanOperator, names]
    rfl
  · refine ⟨_, _, filterExec_result_of_clear sound.1 _, filterExec_result_of_clear sound.1 _, ?_⟩
    exact agrees_of_leftOut distinct sound.2.nonempty sound.2.known filled noFloat
  · exact congrArg some
      (held_of_leftOut distinct sound.2.nonempty sound.2.known filled noFloat)

/-- **The optimizer makes a plan better** whose filters do not compare floats. -/
theorem optimize_improves (distinct : schema.Distinct)
    (filters : FiltersBy (fun predicate => ¬ ComparesFloat schema predicate) plan) :
    PlanImproves lz4 schema plan (optimize plan) := by
  have eliminated : FiltersBy (fun predicate => ¬ ComparesFloat schema predicate)
      (eliminateTrueFilter.apply plan) ∧
        PlanImproves lz4 schema plan (eliminateTrueFilter.apply plan) := by
    refine rewrite_improves distinct (fun node filters => ?_) filters
    split
    · exact ⟨filters.2, planImproves_trueFilter distinct _⟩
    · exact ⟨filters, .refl distinct _⟩
  have pushed : FiltersBy (fun predicate => ¬ ComparesFloat schema predicate)
      (predicatePushdown.apply (eliminateTrueFilter.apply plan)) ∧
        PlanImproves lz4 schema (eliminateTrueFilter.apply plan)
          (predicatePushdown.apply (eliminateTrueFilter.apply plan)) := by
    refine rewrite_improves distinct (fun node filters => ?_) eliminated.1
    split
    · exact ⟨⟨filters.1, trivial⟩, planImproves_pushdown distinct filters.1 _ _⟩
    · exact ⟨filters, .refl distinct _⟩
  exact eliminated.2.trans pushed.2

theorem findAggregate_rewrite {f : PhysicalPlan → PhysicalPlan}
    (node : ∀ plan, findAggregate (f plan) = findAggregate plan) :
    findAggregate (rewrite plan f) = findAggregate plan := by
  induction plan with
  | fullScan table columns => exact node _
  | zoneMapScan table columns predicate => exact node _
  | filter predicate input ih => exact (node _).trans ih
  | project projections input ih => exact (node _).trans ih
  | limit limit input ih => exact (node _).trans ih
  | aggregate groupBy aggregates input ih => exact node _

/-- The optimizer leaves the aggregation in place. -/
theorem findAggregate_optimize : findAggregate (optimize plan) = findAggregate plan := by
  refine (findAggregate_rewrite fun node => ?_).trans (findAggregate_rewrite fun node => ?_)
  · split <;> rfl
  · split <;> rfl

/-- The root of a plan, with another tree, is the root of a plan with that tree. -/
theorem build_of_buildInner {tableDir : PartList} {root : RootExec}
    (built : build plan schema tableDir = .ok root) :
    root.parts = listParts tableDir ∧ buildInner schema plan = .ok root.child ∧
      ∀ plan' tree', buildInner schema plan' = .ok tree' →
        findAggregate plan' = findAggregate plan →
        build plan' schema tableDir = .ok ⟨root.parts, tree', root.merge⟩ := by
  obtain ⟨tree, below, merges⟩ := Outcome.bind_eq_ok.mp built
  dsimp only at merges
  split at merges
  · rename_i groupBy aggregates found
    obtain ⟨accumulators, accumulates, merges⟩ := Outcome.bind_eq_ok.mp merges
    obtain ⟨groupByFields, groups, made⟩ := Outcome.bind_eq_ok.mp merges
    cases made
    refine ⟨rfl, below, fun plan' tree' below' same => ?_⟩
    simp only [build, below', same, found, accumulates, groups, Outcome.ok_bind]
  · rename_i found
    cases merges
    refine ⟨rfl, below, fun plan' tree' below' same => ?_⟩
    simp only [build, below', same, found, Outcome.ok_bind]

end Improve

/-! ## Queries -/

/-- Another tree makes of whatever parts a worker gets what the tree makes, up to the first error of
that. If the filters of the tree are evaluated row by row, the other tree means the same, and what
it makes is that, up to an error of its own. -/
structure KeepsMeaning (lz4 : Lz4) (parts : List PartDir) (tree tree' : ExecutionPlan) : Prop where
  results : ∀ handed : List PartDir, handed.Sublist parts → ∃ items items',
    tree.results lz4 handed = some items ∧ tree'.results lz4 handed = some items' ∧
      AgreesUntil IsError items items'
  meaning : tree.RowFilters → ∀ handed : List PartDir, handed.Sublist parts → ∃ items' meant,
    tree'.results lz4 handed = some items' ∧ tree.meaning lz4 handed = some meant ∧
      tree'.meaning lz4 handed = some meant ∧ AgreesUntil IsError items' meant

/-- **Workers run the optimized tree as the plain tree means.** Take any plan whose filters do not
compare floats, and whose tree is sound. The optimized plan is built too, for the same parts and
with the same final aggregation. Workers run its tree as it reads, it makes what the plain tree
makes, up to an error of that, and if the filters are evaluated row by row, it makes what the plain
tree means, up to an error of its own. -/
theorem optimize_runs (lz4 : Lz4) (schema : TableSchema) (distinct : schema.Distinct)
    (plan : PhysicalPlan)
    (filters : FiltersBy (fun predicate => ¬ ComparesFloat schema predicate) plan)
    (tableDir : PartList) (root : RootExec)
    (built : build plan schema tableDir = .ok root) (sound : root.child.Sound schema)
    (filled : ∀ partDir ∈ root.parts, Filled lz4 schema partDir)
    (few : root.child.wholes + storedRows lz4 schema root.parts ≤ maxGroups) (workers : Nat)
    (positive : 0 < workers) :
    ∃ root' start, build (optimize plan) schema tableDir = .ok root' ∧
      root'.parts = root.parts ∧ root'.merge = root.merge ∧
      GatherExec.new root'.parts workers root'.child = .ok start ∧
      RunsAsItReads lz4 root'.child root.parts workers start ∧
      KeepsMeaning lz4 root.parts root.child root'.child := by
  obtain ⟨_, below, others⟩ := build_of_buildInner built
  obtain ⟨tree', below', better⟩ :=
    @optimize_improves lz4 schema plan distinct filters root.child below sound
  have created : GatherExec.new root.parts workers tree' = .ok (.init root.parts workers tree') :=
    if_neg (Nat.pos_iff_ne_zero.mp positive)
  have share : ∀ handed : List PartDir, handed.Sublist root.parts →
      (∀ partDir ∈ handed, Filled lz4 schema partDir) ∧
        root.child.wholes + storedRows lz4 schema handed ≤ maxGroups := fun handed part =>
    ⟨fun partDir member => filled partDir (part.subset member),
      (Nat.add_le_add_left (storedRows_le part) _).trans few⟩
  refine ⟨_, _, others (optimize plan) tree' below' findAggregate_optimize, rfl, rfl, created,
    better.sound.runs distinct filled (better.wholes ▸ few) created, fun handed part => ?_,
    fun rowFilters handed part => ?_⟩
  · obtain ⟨filled, few⟩ := share handed part
    exact better.results handed filled few
  · obtain ⟨filled, few⟩ := share handed part
    obtain ⟨items', meant, makes, means, agrees, _⟩ :=
      better.sound.agrees distinct (better.filters rowFilters) filled (better.wholes ▸ few)
    exact ⟨items', meant, makes, (better.meaning rowFilters handed filled).symm.trans means, means,
      agrees⟩

/-- `a > 0`. -/
def isPositive : PhysicalExpr :=
  .compare (.column "a") .gt (.literal (.value (.int .i8) (MachineInt.wrap true 7 0)))

/-- The first row with a positive value, with a filter on top that is always true. -/
def firstPositive : PhysicalPlan :=
  .limit 1 (.filter (.literal (.value .bool true)) (.filter isPositive (.fullScan "t" ["a"])))

/-- Two parts with the same files. -/
def twoParts (partDir : PartDir) : PartList := [("part_00000", partDir), ("part_00001", partDir)]

/-- The optimized plan runs on two parts of two rows each, and makes what the plain plan means. -/
theorem optimize_runs_two : ∃ partDir root root' start,
    build firstPositive ⟨"t", [⟨"a", .int .i8⟩]⟩ (twoParts partDir) = .ok root ∧
    build (optimize firstPositive) ⟨"t", [⟨"a", .int .i8⟩]⟩ (twoParts partDir) = .ok root' ∧
    root'.parts = root.parts ∧ root'.merge = root.merge ∧
    GatherExec.new root'.parts 2 root'.child = .ok start ∧
    RunsAsItReads Lz4.literals root'.child root.parts 2 start ∧
    KeepsMeaning Lz4.literals root.parts root.child root'.child ∧ root.child.RowFilters := by
  let schema : TableSchema := ⟨"t", [⟨"a", .int .i8⟩]⟩
  obtain ⟨partDir, batch, written, two⟩ := exists_written_two
  have filled : Filled Lz4.literals schema partDir := ⟨batch, written, by omega⟩
  have rows : partRows Lz4.literals schema partDir = tableRows schema batch :=
    partRows_of_written (by decide) written (by decide)
  have parts : listParts (twoParts partDir) = [partDir, partDir] :=
    (List.perm_replicate (n := 2)).mp (listParts_perm (twoParts partDir))
  let root : RootExec := ⟨listParts (twoParts partDir),
    .limit 1 0 (.filter (.literal (.value .bool true))
      (.filter isPositive (scanPlan [⟨"a", .int .i8⟩] none))), none⟩
  have built : build firstPositive schema (twoParts partDir) = .ok root := rfl
  have runs := optimize_runs Lz4.literals schema (by decide) firstPositive ?_
    (twoParts partDir) root built ?_ ?_ ?_ 2 (by decide)
  · obtain ⟨root', start, built', sameParts, sameMerge, created, asItReads, keeps⟩ := runs
    exact ⟨partDir, root, root', start, built, built', sameParts, sameMerge, created, asItReads,
      keeps, ⟨.inr ⟨_, rfl⟩, rfl, .inl rfl, rfl, trivial⟩⟩
  · exact ⟨by simp [ComparesFloat], by simp [ComparesFloat, IsFloatColumn, isPositive, schema],
      trivial⟩
  · exact ⟨rfl, rfl, rfl, by simp [FullScanExec.new], fun c member => member⟩
  · simp [root, parts, filled]
  · have count : storedRows Lz4.literals schema [partDir, partDir] = 4 := by
      simp [storedRows, rows, tableRows, two]
    simp only [root, parts, count]
    decide

end TinyOlap.Execution
