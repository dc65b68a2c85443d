import TinyOlap.SelectPlan

/-!
# Planning from the scan upwards

The rules of both optimizers leave projections, aggregations and limits where they are, so a
plan can be followed from the scan upwards: what planning makes of a scan with a WHERE clause
(`exists_inputPlan`) stays at the bottom of the plan of every query with this clause.
-/

set_option autoImplicit false

namespace TinyOlap.Logical

open Library Catalog Frontend

/-! ## The logical optimizer, node by node -/

variable (schema : TableSchema)

/-- Rules that pass a node on optimize what is below it. -/
theorem optimize_node {node rewritten : LogicalPlan → LogicalPlan} {input : LogicalPlan}
    (coerces : (typeCoercion schema).apply (node input) =
      node <$> (typeCoercion schema).apply input)
    (folds : ∀ plan, constantFolding.apply (node plan) = rewritten <$> constantFolding.apply plan)
    (keeps : ∀ plan, eliminateTrueFilter.apply (rewritten plan) =
      rewritten <$> eliminateTrueFilter.apply plan) :
    optimize schema (node input) = rewritten <$> optimize schema input := by
  rw [optimize_eq, optimize_eq, coerces]
  cases (typeCoercion schema).apply input with
  | err e => rfl
  | panic => rfl
  | ok coerced =>
      rw [Outcome.map_ok, Outcome.ok_bind, Outcome.ok_bind, folds]
      cases constantFolding.apply coerced with
      | err e => rfl
      | panic => rfl
      | ok folded => rw [Outcome.map_ok, Outcome.ok_bind, Outcome.ok_bind, keeps]

/-- A rule that leaves a node as it is passes it on. -/
theorem rewrite_project {f : LogicalPlan → TextResult LogicalPlan}
    {projections : List LogicalExpr} {node : LogicalPlan → LogicalPlan}
    (passes : ∀ input, f (.project projections input) = .ok (node input)) (input : LogicalPlan) :
    rewrite (.project projections input) f = node <$> rewrite input f := by
  rw [rewrite]
  cases rewrite input f with
  | ok newInput => exact passes newInput
  | err e => rfl
  | panic => rfl

theorem rewrite_aggregate {f : LogicalPlan → TextResult LogicalPlan}
    {groupBy aggregates : List LogicalExpr}
    (passes : ∀ input, f (.aggregate groupBy aggregates input) =
      .ok (.aggregate groupBy aggregates input)) (input : LogicalPlan) :
    rewrite (.aggregate groupBy aggregates input) f =
      .aggregate groupBy aggregates <$> rewrite input f := by
  rw [rewrite]
  cases rewrite input f with
  | ok newInput => exact passes newInput
  | err e => rfl
  | panic => rfl

theorem rewrite_limit {f : LogicalPlan → TextResult LogicalPlan} {limit : Nat}
    (passes : ∀ input, f (.limit limit input) = .ok (.limit limit input)) (input : LogicalPlan) :
    rewrite (.limit limit input) f = .limit limit <$> rewrite input f := by
  rw [rewrite]
  cases rewrite input f with
  | ok newInput => exact passes newInput
  | err e => rfl
  | panic => rfl

theorem optimize_project (projections : List LogicalExpr) (input : LogicalPlan) :
    optimize schema (.project projections input) =
      .project (projections.map foldExpr) <$> optimize schema input :=
  optimize_node schema (rewrite_project (by intro; rfl) input)
    (rewrite_project (by intro; rfl)) (rewrite_project (by intro; rfl))

theorem optimize_aggregate (groupBy aggregates : List LogicalExpr) (input : LogicalPlan) :
    optimize schema (.aggregate groupBy aggregates input) =
      .aggregate groupBy aggregates <$> optimize schema input :=
  optimize_node schema (rewrite_aggregate (by intro; rfl) input)
    (rewrite_aggregate (by intro; rfl)) (rewrite_aggregate (by intro; rfl))

theorem optimize_limit (limit : Nat) (input : LogicalPlan) :
    optimize schema (.limit limit input) = .limit limit <$> optimize schema input :=
  optimize_node schema (rewrite_limit (by intro; rfl) input)
    (rewrite_limit (by intro; rfl)) (rewrite_limit (by intro; rfl))

end TinyOlap.Logical

namespace TinyOlap.Execution

open Library Library.WorkPool Catalog Arrow Storage Physical
open Physical.WherePredicate (ComparesColumn)

/-! ## Evaluable on fewer columns -/

/-- A predicate can be evaluated where the columns it compares have the same types. -/
theorem evaluable_restrict {fields fields' : List Field} {p : PhysicalExpr}
    (evaluable : Evaluable fields p)
    (same : ∀ name ∈ comparedColumns p,
      operandType fields' (.column name) = operandType fields (.column name)) :
    Evaluable fields' p := by
  have operand : ∀ e : PhysicalExpr, (∀ name ∈ comparedColumns e,
      operandType fields' (.column name) = operandType fields (.column name)) →
      ∀ t, operandType fields e = some t → operandType fields' e = some t := by
    intro e inside t typed
    cases e with
    | column name => rw [inside name (List.mem_singleton_self name), typed]
    | literal lit => cases lit <;> exact typed
    | compare left op right => cases typed
    | logical left op right => cases typed
  induction p with
  | column name => exact evaluable.elim
  | literal lit => exact evaluable.elim
  | compare left op right _ _ =>
      obtain ⟨column, t, typedLeft, typedRight⟩ := evaluable
      exact ⟨column, t,
        operand left (fun name member => same name (List.mem_append_left _ member)) t typedLeft,
        operand right (fun name member => same name (List.mem_append_right _ member)) t typedRight⟩
  | logical left op right ihLeft ihRight =>
      exact ⟨ihLeft evaluable.1 fun name member => same name (List.mem_append_left _ member),
        ihRight evaluable.2 fun name member => same name (List.mem_append_right _ member)⟩

/-- A column that is read has the type that the schema gives it. -/
theorem operandType_column {schema : TableSchema} {columns : List ColumnSchema}
    (distinct : schema.Distinct) (known : ∀ c ∈ columns, c ∈ schema.columns) {name : String}
    (member : name ∈ columns.map ColumnSchema.name) :
    operandType (columns.map Field.ofColumn) (.column name) =
      (schema.find name).map ColumnSchema.dataType := by
  rw [operandType, find?_columns distinct known member]
  cases schema.find name <;> rfl

end TinyOlap.Execution

namespace TinyOlap.Physical

/-- Folding only drops columns. -/
theorem collectExprColumns_foldExpr (e : Logical.LogicalExpr) :
    collectExprColumns (Logical.foldExpr e) ⊆ collectExprColumns e := by
  induction e with
  | column table name => exact fun _ member => member
  | literal lit => exact fun _ member => member
  | aggregate func arg ih => exact fun _ member => member
  | cast expr target ih => exact fun _ member => member
  | binaryOp left op right ihLeft ihRight =>
      have inLeft := List.subset_append_of_subset_left (collectExprColumns right) ihLeft
      have inRight := List.subset_append_of_subset_right (collectExprColumns left) ihRight
      have both := List.append_subset.mpr ⟨inLeft, inRight⟩
      simp only [Logical.foldExpr]
      split
      · split
        · exact List.nil_subset _
        · exact both
      · exact inRight
      · exact List.nil_subset _
      · exact List.nil_subset _
      · exact inRight
      · exact both

/-- **A WHERE clause that runs**: its constants on the left make it true or are neutral, the
comparisons that are left have a column each, and no comparison is of floats. -/
def WherePredicate.Supported {schema : Catalog.TableSchema} (w : WherePredicate schema) : Prop :=
  w.Exact ∧ (w.FixedTo true ∨ w.Remains ComparesColumn)

end TinyOlap.Physical

namespace TinyOlap

open Library Library.WorkPool Catalog Arrow Storage Frontend Physical Execution
open Physical.WherePredicate (ComparesColumn)

variable {schema : TableSchema}

/-! ## The plan below projections and aggregations -/

/-- A scan, which skips parts below a filter. -/
def physicalInput (table : String) (columns : List String) : Option PhysicalExpr → PhysicalPlan
  | none => .fullScan table columns
  | some p => .filter p (.zoneMapScan table columns p)

/-- What planning makes of a scan with a WHERE clause. A clause that runs becomes a predicate with
the same meaning, or none. -/
structure InputPlan (w : Option (WherePredicate schema)) (input : Logical.LogicalPlan)
    (p : Option PhysicalExpr) : Prop where
  lowered : ∀ cols, ∃ plan, lowerPlan cols input = .ok plan ∧
    Physical.optimize plan = physicalInput schema.name cols p
  columns : ∀ q ∈ p, comparedColumns q ⊆ collectColumns input
  known : ∀ name ∈ collectColumns input, ∃ c, schema.find name = some c ∧ c.name = name
  means : (∀ v ∈ w, v.Supported) →
    ∀ row, p.all (holds row) = w.all (WherePredicate.holds row)
  evaluable : (∀ v ∈ w, v.Supported) → ∀ q ∈ p,
    Evaluable (schema.columns.map Field.ofColumn) q
  noFloat : (∀ v ∈ w, v.Supported) → schema.Distinct → ∀ q ∈ p, ¬ ComparesFloat schema q

theorem inputPlan_none : InputPlan (none : Option (WherePredicate schema)) (.scan schema.name)
    none where
  lowered cols := ⟨_, rfl, rfl⟩
  columns q member := by cases member
  known name member := by cases member
  means _ _ := rfl
  evaluable _ q member := by cases member
  noFloat _ _ q member := by cases member

theorem optimize_filter (w : WherePredicate schema) :
    Logical.optimize schema (.filter w.toLogical (.scan schema.name)) =
      Logical.eliminateTrueFilter.apply
        (.filter (Logical.foldExpr w.coerced) (.scan schema.name)) := by
  have coerced : (Logical.typeCoercion schema).apply (.filter w.toLogical (.scan schema.name)) =
      .ok (.filter w.coerced (.scan schema.name)) := by
    simp only [Logical.typeCoercion, Logical.rewrite, Outcome.ok_bind, w.coerce_toLogical]
  have folded : Logical.constantFolding.apply (.filter w.coerced (.scan schema.name)) =
      .ok (.filter (Logical.foldExpr w.coerced) (.scan schema.name)) := rfl
  rw [Logical.optimize_eq, coerced, Outcome.ok_bind, folded, Outcome.ok_bind]

/-- **What planning makes of a scan with any WHERE clause.** -/
theorem exists_inputPlan (w : Option (WherePredicate schema)) :
    ∃ input p, Logical.optimize schema (logicalInput (w.map WherePredicate.toLogical) schema) =
      .ok input ∧ InputPlan w input p := by
  cases w with
  | none => exact ⟨_, none, rfl, inputPlan_none⟩
  | some w =>
      have supported : (∀ v ∈ some w, v.Supported) → w.Supported := fun all => all w rfl
      have known : ∀ name ∈ collectExprColumns (Logical.foldExpr w.coerced),
          ∃ c, schema.find name = some c ∧ c.name = name := by
        intro name member
        have named := collectExprColumns_foldExpr _ member
        rw [w.collectExprColumns_coerced] at named
        obtain ⟨ref, _, rfl⟩ := List.mem_map.mp named
        exact ⟨ref.column, ref.found, rfl⟩
      rw [Option.map_some, logicalInput, optimize_filter]
      rcases fixedTo_or_computes w with
        ⟨b, fixed⟩ | ⟨left, op, right, p, folded, lowered, computes, names⟩
      · have constant := WherePredicate.holds_of_fixedTo fixed
        rw [WherePredicate.fold_of_fixedTo fixed]
        cases b with
        | true =>
            refine ⟨_, none, rfl, fun cols => ⟨_, rfl, rfl⟩, by simp, by simp [collectColumns],
              fun _ row => ?_, by simp, by simp⟩
            exact (constant row).1.symm
        | false =>
            -- such a clause does not run
            have never : (∀ v ∈ some w, v.Supported) → False := by
              intro all
              rcases (supported all).2 with holds | remains
              · exact Bool.noConfusion (WherePredicate.fixedTo_inj holds fixed)
              · exact WherePredicate.not_fixedTo_of_column remains _ fixed
            refine ⟨_, some (.literal (.bool false)), rfl, fun cols => ⟨_, rfl, rfl⟩, ?_,
              by simp [collectColumns, collectExprColumns], fun all => (never all).elim,
              fun all => (never all).elim,
              fun all => (never all).elim⟩
            rintro q ⟨⟩
            exact List.nil_subset _
      · have notFixed : ∀ b, ¬ w.FixedTo b := by
          intro b fixed
          cases folded.symm.trans (WherePredicate.fold_of_fixedTo fixed)
        have remains : (∀ v ∈ some w, v.Supported) → w.Remains ComparesColumn := fun all =>
          (supported all).2.resolve_left (notFixed true)
        refine ⟨_, some p, by rw [folded]; rfl, fun cols => ?_, ?_, ?_, fun all row => ?_, ?_, ?_⟩
        · obtain ⟨l, _, lowered'⟩ := Outcome.bind_eq_ok.mp lowered
          obtain ⟨r, _, lowered'⟩ := Outcome.bind_eq_ok.mp lowered'
          refine ⟨.filter p (.fullScan schema.name cols), ?_, ?_⟩
          · rw [lowerPlan, lowered]
            rfl
          · cases lowered'
            cases op <;> rfl
        · rintro q ⟨⟩
          exact List.subset_append_of_subset_left _ names.columns
        · rw [collectColumns, collectColumns, List.append_nil, ← folded]
          exact known
        · exact (computes.all (remains all)).2 row
        · rintro all q ⟨⟩
          exact (computes.all (remains all)).1 _ (fits_schema w)
        · rintro all distinct q ⟨⟩
          exact names.noFloat distinct (supported all).1

/-- **The scan of a query** with a clause that runs reads the columns of the plan. -/
theorem InputPlan.reads {w : Option (WherePredicate schema)} {input : Logical.LogicalPlan}
    {p : Option PhysicalExpr} (plan : InputPlan w input p) (distinct : schema.Distinct)
    (supported : ∀ v ∈ w, v.Supported) {columns : List ColumnSchema} {selected : List String}
    (nonempty : columns ≠ []) (known : ∀ c ∈ columns, c ∈ schema.columns)
    (read : collectColumns input ⊆ columns.map ColumnSchema.name)
    (inside : selected ⊆ columns.map ColumnSchema.name) :
    Reads schema columns p selected := by
  refine ⟨distinct, nonempty, known, inside, fun q member => ?_, plan.noFloat supported distinct⟩
  refine evaluable_restrict (plan.evaluable supported q member) fun name compared => ?_
  have listed := read (plan.columns q member compared)
  rw [operandType_column distinct known listed, operandType_column distinct (fun _ here => here)]
  exact List.map_subset _ known listed

/-! ## LIMIT on top -/

/-- The physical plan of a logical plan. -/
def planLogical (schema : TableSchema) (plan : Logical.LogicalPlan) :
    TextResult PhysicalPlan := do
  let plan ← Logical.optimize schema plan
  let plan ← Physical.lower plan
  .ok (Physical.optimize plan)

theorem planSelect_of_lower {stmt : Statement} {plan : Logical.LogicalPlan}
    (lowered : Logical.lower stmt schema = .ok plan) :
    planSelect stmt schema = planLogical schema plan := by
  rw [planSelect, lowered, Outcome.ok_bind, planLogical]

/-- A LIMIT stays on top of the plan. -/
theorem planLogical_limit (limit : Nat) (plan : Logical.LogicalPlan) :
    planLogical schema (.limit limit plan) = .limit limit <$> planLogical schema plan := by
  rw [planLogical, planLogical, Logical.optimize_limit]
  cases Logical.optimize schema plan with
  | err e => rfl
  | panic => rfl
  | ok optimized =>
      rw [Outcome.map_ok, Outcome.ok_bind, Outcome.ok_bind, Physical.lower, Physical.lower,
        collectColumns, lowerPlan]
      cases lowerPlan (orderedSet (collectColumns optimized)) optimized with
      | err e => rfl
      | panic => rfl
      | ok lowered => rfl

end TinyOlap
