import TinyOlap.AggregateAnswer
import TinyOlap.Execution.OptimizedTree
import TinyOlap.LimitLaw
import TinyOlap.OrdinaryPlan
import TinyOlap.Session

/-!
# Ordinary queries end

Whatever an ordinary query asks, it is run on every schedule without a panic and without
waiting forever, and once the workers are done it is over: with batches, or with an error that a
worker has sent, such as that of a comparison between two types. What the query is does not
matter, and neither does what is in the table.
-/

set_option autoImplicit false

namespace TinyOlap.Execution

open Library Library.WorkPool Catalog Arrow Storage Physical

variable {schema : TableSchema} {columns : List String} {found : List ColumnSchema}

/-! ## The scan -/

theorem scanColumns_eq_ok (scanned : scanColumns schema columns = .ok found) :
    found.map ColumnSchema.name = columns ∧ ∀ c ∈ found, c ∈ schema.columns := by
  have each : List.Forall₂ (fun name c => schema.find name = some c) columns found :=
    (Outcome.mapM_eq_ok scanned).imp fun name c here => Outcome.ofOption_eq_ok.mp here
  constructor
  · have names := map_eq_of_forall₂ (f := ColumnSchema.name) (g := id)
      (each.imp fun name c here => (TableSchema.find_some here).2)
    rw [names, List.map_id]
  · intro c member
    obtain ⟨name, _, here⟩ := exists_of_mem_right each member
    exact (TableSchema.find_some here).1

/-- **A scan below filters is sound**, and returns the columns that it reads. -/
theorem sound_of_scansRows {rows : PhysicalPlan} {child : ExecutionPlan}
    (scans : ScansRows columns rows) (some : columns ≠ [])
    (built : buildInner schema rows = .ok child) :
    ∃ found : List ColumnSchema, found.map ColumnSchema.name = columns ∧
      (∀ c ∈ found, c ∈ schema.columns) ∧ child.Sound schema ∧ child.wholes = 0 ∧
      child.outputFields = found.map Field.ofColumn := by
  have scan : ∀ {names : List String} {found : List ColumnSchema}, names = columns →
      scanColumns schema names = .ok found → found.map ColumnSchema.name = columns ∧
        (∀ c ∈ found, c ∈ schema.columns) ∧
          ScansSome schema (.new found (found.map Field.ofColumn)) := by
    rintro names found rfl scanned
    obtain ⟨same, known⟩ := scanColumns_eq_ok scanned
    refine ⟨same, known, rfl, ?_, known⟩
    rintro rfl
    exact some same.symm
  induction rows generalizing child with
  | fullScan table names =>
      obtain ⟨found, scanned, made⟩ := Outcome.bind_eq_ok.mp built
      cases made
      obtain ⟨same, known, sound⟩ := scan scans scanned
      exact ⟨found, same, known, sound, rfl, rfl⟩
  | zoneMapScan table names predicate =>
      obtain ⟨found, scanned, made⟩ := Outcome.bind_eq_ok.mp built
      cases made
      obtain ⟨same, known, sound⟩ := scan scans scanned
      exact ⟨found, same, known, sound, rfl, rfl⟩
  | filter predicate input ih =>
      obtain ⟨below, inner, made⟩ := Outcome.bind_eq_ok.mp built
      cases made
      obtain ⟨found, same, known, sound, wholes, fields⟩ := ih scans.2 inner
      exact ⟨found, same, known, ⟨scans.1, sound⟩, wholes, fields⟩
  | project projections input _ => exact scans.elim
  | aggregate groupBy aggregates input _ => exact scans.elim
  | limit limit input _ => exact scans.elim

/-! ## The aggregation -/

/-- A column that is read has a type. -/
theorem fieldOf_find (distinct : schema.Distinct) (known : ∀ c ∈ found, c ∈ schema.columns)
    {name : String} {c : ColumnSchema} (read : name ∈ found.map ColumnSchema.name)
    (here : schema.find name = some c) :
    Accumulator.FieldOf (found.map Field.ofColumn) name (toArrow c.dataType) := by
  refine ⟨Field.ofColumn c, ?_, rfl⟩
  rw [find?_columns distinct known read, here]
  rfl

theorem buildTyped_eq_ok {name function : String} {make : NumericType → Accumulator}
    {acc : Accumulator} (built : buildTyped schema name function make = .ok acc) :
    ∃ c t, schema.find name = some c ∧ numericType c.dataType = some t ∧ acc = make t := by
  obtain ⟨c, here, built⟩ := Outcome.bind_eq_ok.mp built
  obtain ⟨t, numeric, made⟩ := Outcome.bind_eq_ok.mp built
  cases made
  exact ⟨c, t, Outcome.ofOption_eq_ok.mp here, Outcome.ofOption_eq_ok.mp numeric, rfl⟩

theorem buildTyped_of_find {name function : String} {make : NumericType → Accumulator}
    {c : ColumnSchema} {t : NumericType} (here : schema.find name = some c)
    (numeric : numericType c.dataType = some t) :
    buildTyped schema name function make = .ok (make t) := by
  rw [buildTyped, here, Outcome.ofOption, Outcome.ok_bind, numeric]
  rfl

/-- **The aggregate that is built of a column**, in both phases. -/
structure BuiltOf (schema : TableSchema) (found : List ColumnSchema) (spec : AggSpec)
    (a : Aggregate) : Prop where
  named : ∃ func name, spec = columnSpec func name ∧ a.outputName = Aggregate.nameOf name func
  built : ∀ isPartial, buildAccumulator schema isPartial spec = .ok (a.accumulator isPartial)
  reads : a.ReadsFrom (found.map Field.ofColumn)

theorem exists_builtOf (distinct : schema.Distinct) (known : ∀ c ∈ found, c ∈ schema.columns)
    {func : AggFunc} {name : String} (read : name ∈ found.map ColumnSchema.name)
    {acc : Accumulator} {isPartial : Bool}
    (built : buildAccumulator schema isPartial (columnSpec func name) = .ok acc) :
    ∃ a, BuiltOf schema found (columnSpec func name) a := by
  have typed : ∀ {c : ColumnSchema} {t : NumericType}, schema.find name = some c →
      numericType c.dataType = some t →
        Accumulator.FieldOf (found.map Field.ofColumn) name (.data t.dataType) := by
    intro c t here numeric
    rw [dataType_of_numericType numeric]
    exact fieldOf_find distinct known read here
  cases func with
  | count => exact ⟨.count name, ⟨_, _, rfl, rfl⟩, fun _ => rfl, trivial⟩
  | avg =>
      refine ⟨.avg name, ⟨_, _, rfl, rfl⟩, fun _ => rfl, ?_⟩
      obtain ⟨c, member, same⟩ := List.mem_map.mp read
      have here := TableSchema.find_of_mem distinct (known c member)
      exact ⟨c.dataType, fieldOf_find distinct known read (same ▸ here)⟩
  | sum =>
      obtain ⟨c, t, here, numeric, _⟩ := buildTyped_eq_ok built
      refine ⟨aggregateOf .sum t name, ⟨_, _, rfl, outputName_aggregateOf _ _ _⟩, fun _ => ?_, ?_⟩
      · exact (buildTyped_of_find here numeric).trans (by cases t <;> rfl)
      · have field := typed here numeric
        cases t <;> exact field
  | min =>
      obtain ⟨c, t, here, numeric, _⟩ := buildTyped_eq_ok built
      refine ⟨aggregateOf .min t name, ⟨_, _, rfl, outputName_aggregateOf _ _ _⟩, fun _ => ?_, ?_⟩
      · exact (buildTyped_of_find here numeric).trans (by cases t <;> rfl)
      · have field := typed here numeric
        cases t <;> exact field
  | max =>
      obtain ⟨c, t, here, numeric, _⟩ := buildTyped_eq_ok built
      refine ⟨aggregateOf .max t name, ⟨_, _, rfl, outputName_aggregateOf _ _ _⟩, fun _ => ?_, ?_⟩
      · exact (buildTyped_of_find here numeric).trans (by cases t <;> rfl)
      · have field := typed here numeric
        cases t <;> exact field

/-- **The clauses of an ordinary plan suit the columns that it scans**, in both phases. -/
theorem exists_aggregates {labels groups : List String} {specs : List AggSpec}
    {rows : PhysicalPlan} (distinct : schema.Distinct)
    (plan : OrdinaryPlan columns labels groups specs rows)
    (same : found.map ColumnSchema.name = columns) (known : ∀ c ∈ found, c ∈ schema.columns)
    (aggregated : groups ≠ [] ∨ specs ≠ []) {accumulators : List Accumulator}
    {groupByFields : List Field}
    (built : buildAccumulators specs schema true = .ok accumulators)
    (grouped : buildGroupByFields (groups.map .column) schema = .ok groupByFields) :
    ∃ aggregates : List Aggregate, accumulators = aggregates.map (Aggregate.accumulator true) ∧
      buildAccumulators specs schema false =
        .ok (aggregates.map (Aggregate.accumulator false)) ∧
      AggregateExec.Sound aggregates groupByFields (found.map Field.ofColumn) ∧
      ∀ name ∈ aggregateNames aggregates groupByFields, name ∈ labels := by
  have each := Outcome.mapM_eq_ok built
  obtain ⟨aggregates, related⟩ : ∃ aggregates, List.Forall₂ (fun spec a =>
      BuiltOf schema found spec a ∧ a.outputName ∈ labels) specs aggregates := by
    refine exists_forall₂ fun spec member => ?_
    obtain ⟨func, name, rfl, read, selected⟩ := plan.calls spec member
    obtain ⟨acc, _, made⟩ := exists_of_mem_left each member
    obtain ⟨a, builtOf⟩ := exists_builtOf distinct known (same ▸ read) made
    obtain ⟨func', name', equal, output⟩ := builtOf.named
    cases equal
    exact ⟨a, builtOf, output ▸ selected⟩
  have builds : ∀ isPartial, buildAccumulators specs schema isPartial =
      .ok (aggregates.map (Aggregate.accumulator isPartial)) := fun isPartial =>
    Outcome.mapM_of_forall₂ (List.forall₂_map_right_iff.mpr
      (related.imp fun spec a both => both.1.built isPartial))
  have keys : List.Forall₂ (fun name f => name ∈ groups ∧ f.name = name ∧
      Accumulator.FieldOf (found.map Field.ofColumn) f.name f.dataType) groups groupByFields := by
    have lists := Outcome.mapM_eq_ok grouped
    rw [List.forall₂_map_left_iff] at lists
    refine ((List.forall₂_and_left (p := (· ∈ groups)) groups groupByFields).mpr
      ⟨fun _ => id, lists⟩).imp ?_
    rintro name f ⟨member, made⟩
    obtain ⟨c, here, made⟩ := Outcome.bind_eq_ok.mp made
    cases made
    exact ⟨member, rfl, fieldOf_find distinct known (same ▸ (plan.grouped name member).1)
      (Outcome.ofOption_eq_ok.mp here)⟩
  refine ⟨aggregates, Outcome.ok.inj (built.symm.trans (builds true)), builds false,
    ⟨fun f member => ?_, fun a member => ?_, fun f here a member => ?_, ?_⟩, fun name member => ?_⟩
  · obtain ⟨_, _, _, _, field⟩ := exists_of_mem_right keys member
    exact field
  · obtain ⟨_, _, builtOf, _⟩ := exists_of_mem_right related member
    exact builtOf.reads
  · obtain ⟨name, _, inside, rfl, _⟩ := exists_of_mem_right keys here
    obtain ⟨_, _, builtOf, _⟩ := exists_of_mem_right related member
    obtain ⟨func, c, _, output⟩ := builtOf.named
    rw [output]
    exact (plan.grouped f.name inside).2.2 func c
  · refine aggregated.imp (fun some none => some ?_) fun some none => some ?_
    · rw [none] at keys
      cases keys
      rfl
    · rw [none] at related
      cases related
      rfl
  · rcases List.mem_append.mp member with group | output
    · obtain ⟨f, here, rfl⟩ := List.mem_map.mp group
      obtain ⟨_, _, inside, rfl, _⟩ := exists_of_mem_right keys here
      exact (plan.grouped f.name inside).2.1
    · obtain ⟨a, here, rfl⟩ := List.mem_map.mp output
      obtain ⟨_, _, _, selected⟩ := exists_of_mem_right related here
      exact selected

/-! ## The tree and the root -/

/-- **The tree of an ordinary query is sound**, and its root merges whatever the workers return. -/
structure OrdinaryRoot (schema : TableSchema) (root : RootExec) : Prop where
  sound : root.child.Sound schema
  wholes : root.child.wholes ≤ 1
  concludes : ∀ g : GatherExec, g.hungUp = true →
    (∀ result ∈ g.returned, HasFields root.child.outputFields result) →
    rowCount g.returned ≤ maxGroups → Concludes root g

theorem findAggregate_scansRows {rows : PhysicalPlan} (scans : ScansRows columns rows) :
    findAggregate rows = none := by
  induction rows with
  | fullScan table names => rfl
  | zoneMapScan table names predicate => rfl
  | filter predicate input ih => exact ih scans.2
  | project projections input _ => exact scans.elim
  | aggregate groupBy aggregates input _ => exact scans.elim
  | limit limit input _ => exact scans.elim

theorem ordinaryRoot {labels groups : List String} {specs : List AggSpec} {rows : PhysicalPlan}
    {tableDir : PartList} {root : RootExec} (distinct : schema.Distinct)
    (plan : OrdinaryPlan columns labels groups specs rows)
    (built : build (ordinaryPlan labels groups specs rows) schema tableDir = .ok root) :
    OrdinaryRoot schema root := by
  obtain ⟨tree, below, merges⟩ := Outcome.bind_eq_ok.mp built
  obtain ⟨child, inner, made⟩ := Outcome.bind_eq_ok.mp below
  cases made
  cases empty : groups.isEmpty && specs.isEmpty with
  | true =>
      rw [if_pos empty] at inner
      obtain ⟨found, _, _, sound, wholes, _⟩ := sound_of_scansRows plan.scans plan.some inner
      have none : findAggregate (ordinaryPlan labels groups specs rows) = none := by
        rw [ordinaryPlan, if_pos empty, findAggregate, findAggregate_scansRows plan.scans]
      rw [none] at merges
      cases merges
      exact ⟨sound, wholes.trans_le (Nat.zero_le 1), fun g hungUp _ _ =>
        concludes_of_none rfl hungUp⟩
  | false =>
      rw [if_neg (by rw [empty]; exact Bool.false_ne_true)] at inner
      obtain ⟨accumulators, accumulates, inner⟩ := Outcome.bind_eq_ok.mp inner
      obtain ⟨scan, scanned, inner⟩ := Outcome.bind_eq_ok.mp inner
      obtain ⟨groupByFields, grouped, made⟩ := Outcome.bind_eq_ok.mp inner
      cases made
      obtain ⟨found, same, known, soundScan, wholes, fields⟩ :=
        sound_of_scansRows plan.scans plan.some scanned
      have aggregated : groups ≠ [] ∨ specs ≠ [] := by
        rw [← Decidable.not_and_iff_not_or_not]
        rintro ⟨rfl, rfl⟩
        cases empty
      obtain ⟨aggregates, rfl, final, sound, selected⟩ :=
        exists_aggregates distinct plan same known aggregated accumulates grouped
      have both : findAggregate (ordinaryPlan labels groups specs rows) =
          some (groups.map .column, specs) := by
        rw [ordinaryPlan, if_neg (by rw [empty]; exact Bool.false_ne_true), findAggregate,
          findAggregate]
      simp only [both, final, grouped, Outcome.ok_bind] at merges
      cases merges
      have fresh : ∀ isPartial, ∀ acc ∈ aggregates.map (Aggregate.accumulator isPartial),
          acc.bare = acc := by
        intro isPartial acc member
        obtain ⟨a, _, rfl⟩ := List.mem_map.mp member
        exact Aggregate.bare_accumulator isPartial a
      have some : ∀ isPartial,
          groupByFields ≠ [] ∨ aggregates.map (Aggregate.accumulator isPartial) ≠ [] :=
        fun isPartial => sound.some.imp_right fun some => by simpa using some
      refine ⟨⟨⟨rfl, fresh true, ?_, ?_, some true⟩, soundScan⟩, ?_, ?_⟩
      · rw [fields]
        exact sound.grouped
      · intro acc member
        obtain ⟨a, here, rfl⟩ := List.mem_map.mp member
        rw [fields]
        exact sound.reads a here
      · simp only [ExecutionPlan.wholes, wholes, Nat.zero_add]
        split <;> omega
      · intro g hungUp typed few
        refine concludes_of_merge (fresh false) rfl (some false) (fun batch member => ?_) few hungUp
        refine sound.planned selected ?_
        rw [typed (.ok batch) member batch rfl, ExecutionPlan.outputFields,
          ExecutionPlan.outputFields, HashAggregateExec.new, List.map_map]
        rfl

end TinyOlap.Execution

namespace TinyOlap

open Library Library.WorkPool Catalog Arrow Storage Frontend Physical Execution Logical

variable {lz4 : Lz4} {schema : TableSchema} {tableDir : PartList} {root : RootExec}

/-! ## Queries -/

/-- A LIMIT leaves the root as it is. -/
theorem ordinaryRoot_limit {limit : Nat} {plan : PhysicalPlan}
    (below : ∀ root, build plan schema tableDir = .ok root → OrdinaryRoot schema root)
    (built : build (.limit limit plan) schema tableDir = .ok root) : OrdinaryRoot schema root := by
  obtain ⟨_, inner, others⟩ := build_of_buildInner built
  obtain ⟨child, scanned, made⟩ := Outcome.bind_eq_ok.mp inner
  have made : ExecutionPlan.limit limit 0 child = root.child := Outcome.ok.inj made
  obtain ⟨sound, wholes, concludes⟩ := below _ (others plan child scanned rfl)
  refine ⟨?_, ?_, fun g hungUp typed few => concludes g hungUp (fun result member => ?_) few⟩
  · rw [← made]
    exact sound
  · rw [← made]
    exact wholes
  · have has := typed result member
    rw [← made] at has
    exact has

/-- **The root of an ordinary query.** -/
theorem ordinaryRoot_of_runSelect {query : Query} {select : Select} (distinct : schema.Distinct)
    (columns : schema.columns ≠ []) (checked : checkStatement (.query query) schema = .ok ())
    (body : query.body = .select select) (ordinary : Ordinary schema select)
    (planned : runSelect (.query query) schema tableDir = .ok root) :
    OrdinaryRoot schema root := by
  obtain ⟨_, validated, analyzed⟩ := Outcome.bind_eq_ok.mp checked
  obtain ⟨select', table, clauses, keys, modifiers, valid⟩ := exists_validSelect validated
  cases valid.body.symm.trans body
  obtain ⟨physical, plans, built⟩ := Outcome.bind_eq_ok.mp planned
  obtain ⟨logical, lowers, _⟩ := Outcome.bind_eq_ok.mp plans
  rw [planSelect_of_lower lowers] at plans
  rw [Outcome.mapErr_eq_ok] at built
  obtain ⟨input, groupBy, aggregates, projections, lowered⟩ := exists_loweredSelect body lowers
  obtain ⟨groups, rfl, ordered⟩ :=
    ordinary.lowered columns valid (valid.analyzed analyzed).2 lowered
  have below : ∀ {plan}, planLogical schema (.project projections
      (belowProjection (groups.map (.column schema.name)) aggregates input)) = .ok plan →
        ∀ root, build plan schema tableDir = .ok root → OrdinaryRoot schema root := by
    intro plan planned root built
    obtain ⟨_, labels, specs, rows, rfl, shape⟩ :=
      exists_ordinaryPlan ordered lowered.filtered ordinary.noNull planned
    exact ordinaryRoot distinct shape built
  have limited := lowered.limited
  cases clause : query.limitClause with
  | none =>
      rw [clause] at limited
      cases limited
      exact below plans root built
  | some clause' =>
      rw [clause] at limited
      obtain ⟨limit, _, same⟩ := Outcome.bind_eq_ok.mp limited
      cases same
      rw [planLogical_limit] at plans
      obtain ⟨plan, inner, rfl⟩ := Outcome.map_eq_ok.mp plans
      exact ordinaryRoot_limit (below inner) built

/-- **Ordinary queries end.** Take any statement that passes the checks and is an ordinary query,
with any clauses, and any table directory each of whose parts holds a whole batch with a row, with
few enough rows for the indices of the groups. If the query is planned, its workers run the tree as
it reads, on every schedule, and when they are done, the query has returned batches, or an error
that a worker has sent: neither they nor the final aggregation panic. -/
theorem ordinary_concludes (lz4 : Lz4) (schema : TableSchema) (distinct : schema.Distinct)
    (columns : schema.columns ≠ []) (query : Query) (select : Select)
    (checked : checkStatement (.query query) schema = .ok ())
    (body : query.body = .select select) (ordinary : Ordinary schema select) (tableDir : PartList)
    (filled : ∀ partDir ∈ listParts tableDir, Filled lz4 schema partDir) (workers : Nat)
    (positive : 0 < workers)
    (few : workers + storedRows lz4 schema (listParts tableDir) ≤ maxGroups) (root : RootExec)
    (planned : runSelect (.query query) schema tableDir = .ok root) :
    ∃ start, GatherExec.new root.parts workers root.child = .ok start ∧
      RunsAsItReads lz4 root.child root.parts workers start ∧
      ∀ events g, start.run lz4 events = some g → g.hungUp = true → Concludes root g := by
  obtain ⟨sound, wholes, concludes⟩ :=
    ordinaryRoot_of_runSelect distinct columns checked body ordinary planned
  obtain ⟨_, _, built⟩ := Outcome.bind_eq_ok.mp planned
  obtain ⟨parts, _⟩ := build_of_buildInner (Outcome.mapErr_eq_ok.mp built)
  rw [← parts] at filled few
  have fewTree : root.child.wholes + storedRows lz4 schema root.parts ≤ maxGroups := by omega
  have created : GatherExec.new root.parts workers root.child =
      .ok (.init root.parts workers root.child) := if_neg (Nat.pos_iff_ne_zero.mp positive)
  have runs := sound.runs distinct filled fewTree created
  refine ⟨_, created, runs, fun events g ran hungUp => ?_⟩
  obtain ⟨typed, rows⟩ := runs.received distinct sound filled fewTree ran hungUp
  have most : workers * root.child.wholes ≤ workers * 1 := Nat.mul_le_mul_left workers wholes
  exact concludes g hungUp typed (by omega)

set_option maxRecDepth 4000 in
/-- `SELECT b, COUNT(a) FROM t GROUP BY b LIMIT 1`, on a table with one row and with two workers. -/
theorem ordinary_concludes_pair : ∃ w root start,
    insertAll Lz4.literals (.open pairSchema .dataDir) [onePair] = some w ∧
    runSelect (.query (limited (groupedQuery groupAndCount.items) limitOne)) pairSchema w.parts =
      .ok root ∧
    GatherExec.new root.parts 2 root.child = .ok start ∧
    RunsAsItReads Lz4.literals root.child root.parts 2 start ∧
    ∀ events g, start.run Lz4.literals events = some g → g.hungUp = true → Concludes root g := by
  obtain ⟨w, accepted⟩ : ∃ w,
      insertAll Lz4.literals (.open pairSchema .dataDir) [onePair] = some w := ⟨_, rfl⟩
  have stored : StoredAs Lz4.literals pairSchema w.parts [onePair] :=
    storedAs_of_insertAll (by decide) (by decide) accepted
  obtain ⟨_, _, _, _, _, _, planned⟩ := groupAndCount.exists_root groupAndCount_written
  have planned := @runSelect_limited pairSchema (groupedQuery groupAndCount.items) rfl limitOne 1
    rfl w.parts _ (planned w.parts)
  have some : ∀ batch ∈ [onePair], 0 < batch.numRows := by simp [onePair]
  have few : storedRows Lz4.literals pairSchema (listParts w.parts) = 1 :=
    (stored.partRows_perm (by decide) (by decide)).length_eq
  have ordinary := @ordinary_concludes Lz4.literals pairSchema (by decide) (by decide)
    (limited (groupedQuery groupAndCount.items) limitOne) _ (by decide) rfl ?_ w.parts
    (stored.filled some) 2 Nat.two_pos ?_ _ planned
  · obtain ⟨start, concludes⟩ := ordinary
    exact ⟨w, _, start, accepted, planned, concludes⟩
  · refine ⟨by simp [groupAndCount], by simp, ?_, ?_, ?_⟩
    · intro item member name distinct arg rest filter overClause clauses expr
      simp only [groupAndCount, List.map_cons, List.map_nil, List.mem_cons, List.not_mem_nil,
        or_false] at member
      rcases member with rfl | rfl
      · cases expr
      · cases expr
        exact .inl ⟨_, rfl⟩
    · intro e member
      cases List.mem_singleton.mp member
      exact ⟨_, List.mem_cons_self, .inr ⟨_, rfl, rfl⟩⟩
    · intro e member name func c named same
      cases List.mem_singleton.mp member
      cases named
      have letters := congrArg String.toList same
      cases func <;> simp [pairGroup, Aggregate.nameOf] at letters
  · rw [few]
    decide

end TinyOlap
