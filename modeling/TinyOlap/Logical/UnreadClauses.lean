import TinyOlap.Frontend.Clauses
import TinyOlap.Logical.LowerMeaning

/-!
# Clauses that are not read

The validator denies what it knows, and the lowering reads what it needs. What is between the
two is accepted and ignored: HAVING, ORDER BY, OFFSET, the modifiers of GROUP BY, and whatever
stands in or behind the parentheses of a call beside its argument. The plan is that of the query
without them (`lower_drop`). A clause that leaves the rows of every query as they are, such as
FOR UPDATE, may be ignored. Which of the clauses that no stage knows do so is left open.
-/

set_option autoImplicit false

namespace TinyOlap.Logical

open Library Catalog Frontend

variable {schema : TableSchema} {out : ClauseKind → Bool} {harmless : String → Bool} {q : Query}
  {plan : LogicalPlan}

/-! ## The same plan -/

mutual

theorem lowerExpr_drop : ∀ e : Expr, lowerExpr schema (e.drop out) = lowerExpr schema e
  | .binaryOp left op right => by
      rw [Expr.drop, lowerExpr, lowerExpr, lowerExpr_drop left, lowerExpr_drop right]
  | .function name args filter overClause clauses => by
      rw [Expr.drop, lowerExpr, lowerExpr, lowerArguments_drop args]
  | .identifier _ => rfl
  | .compoundIdentifier _ => rfl
  | .value _ => rfl
  | .unaryOp .. => rfl
  | .subquery => rfl
  | .other .. => rfl

theorem lowerArguments_drop : ∀ args : FunctionArguments Expr,
    lowerArguments schema (dropArguments out args) = lowerArguments schema args
  | .list distinct args => by
      rw [dropArguments, lowerArguments, lowerArguments, lowerFirst_drop args]
  | .none => rfl
  | .subquery => rfl

theorem lowerFirst_drop : ∀ args : List (FunctionArg Expr),
    lowerFirst schema (dropArgs out args) = lowerFirst schema args
  | [] => rfl
  | arg :: rest => by rw [dropArgs, lowerFirst, lowerFirst, lowerArg_drop arg]

theorem lowerArg_drop : ∀ arg : FunctionArg Expr,
    lowerArg schema (dropArg out arg) = lowerArg schema arg
  | .unnamed e => by rw [dropArg, lowerArg, lowerArg, lowerExpr_drop e]
  | .wildcard => rfl
  | .named .. => rfl

end

theorem lowerSelectItem_drop (item : SelectItem) :
    lowerSelectItem schema (item.drop out) = lowerSelectItem schema item := by
  cases item with
  | unnamedExpr e => rw [SelectItem.drop, lowerSelectItem, lowerSelectItem, lowerExpr_drop]
  | exprWithAlias e a => rw [SelectItem.drop, lowerSelectItem, lowerSelectItem, lowerExpr_drop]
  | _ => rfl

theorem aggregateItem_drop (item : SelectItem) :
    aggregateItem (item.drop out) = (aggregateItem item).map (Expr.drop out) := by
  cases item with
  | unnamedExpr e => cases e <;> rfl
  | exprWithAlias e a => cases e <;> rfl
  | _ => rfl

theorem lowerProjection_drop (items : List SelectItem) :
    lowerProjection (items.map (SelectItem.drop out)) schema = lowerProjection items schema := by
  simp only [lowerProjection, List.mapM_map, Function.comp_def, lowerSelectItem_drop]

theorem collectAggregates_drop (items : List SelectItem) :
    collectAggregates (items.map (SelectItem.drop out)) schema =
      collectAggregates items schema := by
  have calls : (items.map (SelectItem.drop out)).filterMap aggregateItem =
      (items.filterMap aggregateItem).map (Expr.drop out) := by
    rw [List.filterMap_map, List.map_filterMap]
    exact List.filterMap_congr fun item _ => aggregateItem_drop item
  rw [collectAggregates, collectAggregates, calls, List.mapM_map]
  simp only [Function.comp_def, lowerExpr_drop]

theorem lowerLimit_drop (clause : LimitClause) :
    lowerLimit (clause.drop out) = lowerLimit clause := by
  cases clause with
  | offsetCommaLimit => rfl
  | limitOffset limit offset =>
      cases limit with
      | none => rfl
      | some limit =>
          cases limit with
          | value v => cases v <;> rfl
          | _ => rfl

/-- The kinds of clauses that the lowering reads. -/
def ClauseKind.Read (kind : ClauseKind) : Prop :=
  kind = .selection ∨ kind = .groupBy ∨ kind = .limit

/-- **The lowering does not read the others.** -/
theorem lower_drop (unread : ∀ kind, ClauseKind.Read kind → out kind = false) (q : Query) :
    lower (.query (q.drop out)) schema = lower (.query q) schema := by
  have selection := unread .selection (.inl rfl)
  have groupBy := unread .groupBy (.inr (.inl rfl))
  have limit := unread .limit (.inr (.inr rfl))
  obtain ⟨_, body, _, limitClause, _, _⟩ := q
  cases body with
  | select select =>
      have grouped : lowerGroupBy (select.groupBy.drop out) schema =
          lowerGroupBy select.groupBy schema := by
        cases select.groupBy with
        | all => rfl
        | expressions exprs modifiers => simp [GroupByExpr.drop, groupBy, lowerGroupBy]
      rw [lower, lower, lowerQuery, lowerQuery]
      simp only [Query.drop, SetExpr.drop, Select.drop, selection, limit, grouped,
        lowerProjection_drop, collectAggregates_drop, Bool.false_eq_true, if_false]
      cases limitClause with
      | none => rfl
      | some clause => simp only [Option.map_some, lowerLimit_drop]
  | _ => rfl

/-! ## What is there -/

/-- These kinds of clauses stand in no call. -/
def Outside (out : ClauseKind → Bool) : Prop :=
  out .callDistinct = false ∧ out .callFilter = false ∧ out .callOver = false ∧
    ∀ name, out (.named name) = false

theorem dropClauses_of_outside (outside : Outside out) (clauses : List (Clause Expr)) :
    dropClauses out clauses = clauses :=
  List.filter_eq_self.mpr fun clause _ => by rw [outside.2.2.2]; rfl

mutual

theorem exprDrop_of_outside (outside : Outside out) : ∀ e : Expr, e.drop out = e
  | .binaryOp left op right => by
      rw [Expr.drop, exprDrop_of_outside outside left, exprDrop_of_outside outside right]
  | .function name args filter overClause clauses => by
      rw [Expr.drop, argumentsDrop_of_outside outside args, outside.2.1, outside.2.2.1,
        dropClauses_of_outside outside]
      simp
  | .identifier _ => rfl
  | .compoundIdentifier _ => rfl
  | .value _ => rfl
  | .unaryOp .. => rfl
  | .subquery => rfl
  | .other .. => rfl

theorem argumentsDrop_of_outside (outside : Outside out) :
    ∀ args : FunctionArguments Expr, dropArguments out args = args
  | .list distinct args => by
      rw [dropArguments, argsDrop_of_outside outside args, outside.1]
      simp
  | .none => rfl
  | .subquery => rfl

theorem argsDrop_of_outside (outside : Outside out) :
    ∀ args : List (FunctionArg Expr), dropArgs out args = args
  | [] => rfl
  | arg :: rest => by
      rw [dropArgs, argDrop_of_outside outside arg, argsDrop_of_outside outside rest]

theorem argDrop_of_outside (outside : Outside out) :
    ∀ arg : FunctionArg Expr, dropArg out arg = arg
  | .unnamed e => by rw [dropArg, exprDrop_of_outside outside e]
  | .wildcard => rfl
  | .named .. => rfl

end

theorem itemDrop_of_outside (outside : Outside out) (item : SelectItem) :
    item.drop out = item := by
  cases item with
  | wildcard clauses => rw [SelectItem.drop, dropClauses_of_outside outside]
  | unnamedExpr e => rw [SelectItem.drop, exprDrop_of_outside outside]
  | exprWithAlias e a => rw [SelectItem.drop, exprDrop_of_outside outside]
  | other => rfl

theorem fromDrop_of_outside (outside : Outside out) (item : TableWithJoins) :
    (⟨item.relation.drop out, item.joins⟩ : TableWithJoins) = item := by
  obtain ⟨relation, joins⟩ := item
  cases relation with
  | table name clauses => rw [TableFactor.drop, dropClauses_of_outside outside]
  | other => rfl

theorem limitDrop_of_keeps (keeps : out .offset = false) (clause : LimitClause) :
    clause.drop out = clause := by
  cases clause with
  | offsetCommaLimit => rfl
  | limitOffset limit offset => simp [LimitClause.drop, keeps]

theorem outside_of_read {kind : ClauseKind} (read : ClauseKind.Read kind) :
    Outside (· == kind) := by
  rcases read with rfl | rfl | rfl <;> exact ⟨rfl, rfl, rfl, fun _ => rfl⟩

section Reads

variable {select : Select} {table : String} {clauses : List (Clause Expr)} {keys : List Expr}
  {modifiers : List String}

/-- Without its WHERE, its GROUP BY or its LIMIT a query is the same elsewhere. -/
theorem without_of_read {kind : ClauseKind} (read : ClauseKind.Read kind)
    (body : q.body = .select select) : q.without kind =
      { q with
        body := .select
          { select with
            selection := if .selection = kind then none else select.selection
            groupBy := select.groupBy.drop (· == kind) }
        limitClause := if .limit = kind then none else q.limitClause } := by
  have outside := outside_of_read read
  obtain ⟨offset, having', orderBy'⟩ : ((ClauseKind.offset == kind) : Bool) = false ∧
      ((ClauseKind.having == kind) : Bool) = false ∧
      ((ClauseKind.orderBy == kind) : Bool) = false := by
    rcases read with rfl | rfl | rfl <;> exact ⟨rfl, rfl, rfl⟩
  have limits : q.limitClause.map (LimitClause.drop (· == kind)) = q.limitClause := by
    cases q.limitClause with
    | none => rfl
    | some clause => exact congrArg some (limitDrop_of_keeps offset clause)
  have items : select.projection.map (SelectItem.drop (· == kind)) = select.projection :=
    (List.map_congr_left fun item _ => itemDrop_of_outside outside item).trans (List.map_id _)
  have froms : (select.from.map fun item =>
      (⟨item.relation.drop (· == kind), item.joins⟩ : TableWithJoins)) = select.from :=
    (List.map_congr_left fun item _ => fromDrop_of_outside outside item).trans (List.map_id _)
  rw [Query.without, Query.drop, body, SetExpr.drop, Select.drop]
  simp only [having', orderBy', limits, items, froms, dropClauses_of_outside outside, beq_iff_eq,
    Bool.false_eq_true, if_false]

/-- Plans with the same limit have the same plan below. -/
theorem lowerTop_inj {limitClause : Option LimitClause} {below below' : LogicalPlan}
    (lowered : lowerTop limitClause below = .ok plan)
    (lowered' : lowerTop limitClause below' = .ok plan) : below = below' := by
  cases limitClause with
  | none => exact Outcome.ok.inj (lowered.trans lowered'.symm)
  | some clause =>
      obtain ⟨n, read, same⟩ := Outcome.bind_eq_ok.mp lowered
      obtain ⟨n', read', same'⟩ := Outcome.bind_eq_ok.mp lowered'
      cases same.trans same'.symm
      rfl

/-- **What the lowering reads, it reflects**: without its WHERE, its GROUP BY or its LIMIT a query
has another plan. -/
theorem lower_without_ne {kind : ClauseKind} (read : ClauseKind.Read kind)
    (valid : ValidSelect q select table clauses keys modifiers)
    (lowered : lower (.query q) schema = .ok plan) (has : q.Has kind) :
    lower (.query (q.without kind)) schema ≠ .ok plan := by
  intro same
  have without := without_of_read read valid.body
  rw [without] at same
  have differs : ({ q with
      body := .select
        { select with
          selection := if .selection = kind then none else select.selection
          groupBy := select.groupBy.drop (· == kind) }
      limitClause := if .limit = kind then none else q.limitClause } : Query) ≠ q :=
    without ▸ has
  obtain ⟨input, groupBy, aggregates, projections, parts⟩ := exists_loweredSelect valid.body lowered
  obtain ⟨input', groupBy', aggregates', projections', parts'⟩ := exists_loweredSelect rfl same
  obtain ⟨w, b, orderBy, limitClause, fetch, others⟩ := q
  cases valid.body
  obtain ⟨distinct, projection, from', selection, grouped, having', selectClauses⟩ := select
  cases valid.grouped
  cases parts.collected.symm.trans parts'.collected
  cases parts.projected.symm.trans parts'.projected
  rcases read with rfl | rfl | rfl
  · cases parts.grouped.symm.trans parts'.grouped
    cases selection with
    | none => exact differs rfl
    | some predicate =>
        obtain ⟨p, _, made⟩ := Outcome.bind_eq_ok.mp parts.filtered
        have made' : LogicalPlan.scan schema.name = input' := Outcome.ok.inj parts'.filtered
        have below := lowerTop_inj parts.limited parts'.limited
        rw [← Outcome.ok.inj made, ← made'] at below
        split at below <;> cases below
  · cases parts.filtered.symm.trans parts'.filtered
    cases keys with
    | nil => exact differs rfl
    | cons e keys =>
        have below := lowerTop_inj parts.limited parts'.limited
        have each := Outcome.mapM_eq_ok parts.grouped
        cases Outcome.mapM_eq_ok parts'.grouped
        cases each with
        | cons here rest =>
            rw [List.isEmpty_cons, Bool.false_and, if_neg Bool.false_ne_true] at below
            split at below
            · -- the plan below the groups is a scan or a filter
              have noGroups := parts.filtered
              rw [← (LogicalPlan.project.inj below).2] at noGroups
              cases selection with
              | none => cases noGroups
              | some predicate =>
                  obtain ⟨p, _, made⟩ := Outcome.bind_eq_ok.mp noGroups
                  cases made
            · cases below
  · cases parts.grouped.symm.trans parts'.grouped
    cases parts.filtered.symm.trans parts'.filtered
    cases limitClause with
    | none => exact differs rfl
    | some clause =>
        obtain ⟨n, _, made⟩ := Outcome.bind_eq_ok.mp parts.limited
        cases made.trans parts'.limited.symm

end Reads

/-! ## Nothing is ignored -/

/-- The kinds of clauses that leave the rows of every query as they are. -/
def ClauseKind.Harmless (harmless : String → Bool) : ClauseKind → Bool
  | .named name => harmless name
  | _ => false

/-- A plan says what a query says: it has the same rows over every table. Clauses that leave the
rows as they are do not count. -/
def Reflects (harmless : String → Bool) (schema : TableSchema) (plan : LogicalPlan) (q : Query) :
    Prop :=
  ∀ (I : Interpretation) (table : Table schema),
    I.queryMeaning table (q.drop (ClauseKind.Harmless harmless)) =
      (I.meaning table plan).map values

/-- **Nothing in a query is ignored**: its plan says what it says, and each clause of it that is not
harmless is reflected in the plan, which is another one without the clause. -/
structure NothingIgnored (harmless : String → Bool) (schema : TableSchema) (plan : LogicalPlan)
    (q : Query) : Prop where
  reflects : Reflects harmless schema plan q
  reads : ∀ kind, q.Has kind → ClauseKind.Harmless harmless kind = false →
    lower (.query (q.without kind)) schema ≠ .ok plan

/-- Every clause of the query is one that the lowering reads, or harmless. -/
def Query.Clean (harmless : String → Bool) (q : Query) : Prop :=
  ∀ kind, q.Has kind → ClauseKind.Read kind ∨ ClauseKind.Harmless harmless kind = true

section Clean

variable {select : Select} {table : String} {clauses : List (Clause Expr)} {keys : List Expr}
  {modifiers : List String}

/-- Clauses that are all harmless are taken out together. -/
theorem dropClauses_of_clean {clauses : List (Clause Expr)}
    (clean : ∀ name, harmless name = false → dropClauses (· == .named name) clauses = clauses) :
    dropClauses (ClauseKind.Harmless harmless) clauses = [] := by
  refine List.filter_eq_nil_iff.mpr fun clause member kept => ?_
  have harms : harmless clause.name = false := by simpa [ClauseKind.Harmless] using kept
  have stays := clean clause.name harms ▸ member
  simp [dropClauses] at stays

/-- A kind that the lowering does not read, and that is not harmless. -/
theorem without_of_clean (clean : Query.Clean harmless q) {kind : ClauseKind}
    (unread : ¬ ClauseKind.Read kind) (harms : ClauseKind.Harmless harmless kind = false) :
    q.without kind = q := by
  by_contra has
  rcases clean kind has with read | harmlessKind
  · exact unread read
  · rw [harms] at harmlessKind
    cases harmlessKind

theorem length_dropArgs (args : List (FunctionArg Expr)) :
    (dropArgs out args).length = args.length := by
  induction args with
  | nil => rfl
  | cons arg rest ih => rw [dropArgs, List.length_cons, List.length_cons, ih]

theorem validateProjectionExpr_drop {e : Expr} (valid : validateProjectionExpr e = .ok ()) :
    validateProjectionExpr (e.drop out) = .ok () := by
  cases e with
  | function name args filter overClause clauses =>
      cases args with
      | list distinct args =>
          simp only [Expr.drop, dropArguments, validateProjectionExpr, length_dropArgs] at valid ⊢
          exact valid
      | none => exact valid
      | subquery => exact valid
  | identifier name => rfl
  | compoundIdentifier parts => rfl
  | _ => cases valid

theorem validateSelectItem_drop {item : SelectItem} (valid : validateSelectItem item = .ok ()) :
    validateSelectItem (item.drop out) = .ok () := by
  cases item with
  | wildcard clauses => rfl
  | unnamedExpr e => exact validateProjectionExpr_drop valid
  | exprWithAlias e a => exact validateProjectionExpr_drop valid
  | other => cases valid

/-- A query stays valid when clauses are taken out that are not read. -/
theorem ValidSelect.drop (valid : ValidSelect q select table clauses keys modifiers)
    (keeps : out .groupBy = false) :
    ValidSelect (q.drop out) (select.drop out) table (dropClauses out clauses) keys
      (if out .modifiers then [] else modifiers) where
  body := by
    rw [Query.drop, valid.body]
    rfl
  noWith := valid.noWith
  noFetch := valid.noFetch
  noDistinct := valid.noDistinct
  oneTable := by
    rw [Select.drop, valid.oneTable]
    rfl
  grouped := by
    rw [Select.drop, valid.grouped, GroupByExpr.drop, keeps, if_neg Bool.false_ne_true]
  items := by
    intro item member
    obtain ⟨source, inside, rfl⟩ := List.mem_map.mp member
    exact validateSelectItem_drop (valid.items source inside)
  columns := valid.columns

/-- An expression of the SELECT list with no clause but harmless ones in its calls. -/
theorem exprRead_of_clean {e : Expr}
    (clean : ∀ kind, ¬ ClauseKind.Read kind → ClauseKind.Harmless harmless kind = false →
      e.drop (· == kind) = e) :
    (e.drop (ClauseKind.Harmless harmless)).read = e.drop (ClauseKind.Harmless harmless) := by
  cases e with
  | function name args filter overClause clauses =>
      have noDistinct := clean .callDistinct (by simp [ClauseKind.Read]) rfl
      have noFilter := clean .callFilter (by simp [ClauseKind.Read]) rfl
      have noOver := clean .callOver (by simp [ClauseKind.Read]) rfl
      have noClause : dropClauses (ClauseKind.Harmless harmless) clauses = [] :=
        dropClauses_of_clean fun name harms => by
          have same := clean (.named name) (by simp [ClauseKind.Read]) harms
          rw [Expr.drop] at same
          exact (Expr.function.inj same).2.2.2.2
      rw [Expr.drop] at noDistinct noFilter noOver
      have filterNone : none = filter := (Expr.function.inj noFilter).2.2.1
      have overFalse : (overClause && !true) = overClause := (Expr.function.inj noOver).2.2.2.1
      rw [Bool.not_true, Bool.and_false] at overFalse
      rw [Expr.drop, noClause, ← filterNone, ← overFalse]
      cases args with
      | list distinct args =>
          have plain : (distinct && !true) = distinct :=
            (FunctionArguments.list.inj (Expr.function.inj noDistinct).2.1).1
          rw [Bool.not_true, Bool.and_false] at plain
          rw [dropArguments, ← plain]
          rfl
      | none => rfl
      | subquery => rfl
  | _ => rfl

theorem itemRead_of_clean {item : SelectItem}
    (clean : ∀ kind, ¬ ClauseKind.Read kind → ClauseKind.Harmless harmless kind = false →
      item.drop (· == kind) = item) :
    (item.drop (ClauseKind.Harmless harmless)).read =
      item.drop (ClauseKind.Harmless harmless) := by
  cases item with
  | wildcard clauses =>
      have none : dropClauses (ClauseKind.Harmless harmless) clauses = [] :=
        dropClauses_of_clean fun name harms =>
          SelectItem.wildcard.inj (clean (.named name) (by simp [ClauseKind.Read]) harms)
      rw [SelectItem.drop, none, SelectItem.read]
  | unnamedExpr e =>
      rw [SelectItem.drop, SelectItem.read, exprRead_of_clean fun kind unread harms =>
        SelectItem.unnamedExpr.inj (clean kind unread harms)]
  | exprWithAlias e a =>
      rw [SelectItem.drop, SelectItem.read, exprRead_of_clean fun kind unread harms =>
        (SelectItem.exprWithAlias.inj (clean kind unread harms)).1]
  | other => rfl

/-- **Without its harmless clauses, a clean query has nothing that the lowering does not read.** -/
theorem read_of_clean (valid : ValidSelect q select table clauses keys modifiers)
    (clean : Query.Clean harmless q) :
    (q.drop (ClauseKind.Harmless harmless)).read = q.drop (ClauseKind.Harmless harmless) := by
  have same := fun kind (unread : ¬ ClauseKind.Read kind)
      (harms : ClauseKind.Harmless harmless kind = false) => without_of_clean clean unread harms
  -- a kind that is not there is not there in any part of the query
  have selects : ∀ kind, ¬ ClauseKind.Read kind → ClauseKind.Harmless harmless kind = false →
      select.drop (· == kind) = select := by
    intro kind unread harms
    have bodies := congrArg Query.body (same kind unread harms)
    rw [Query.without, Query.drop, valid.body] at bodies
    exact SetExpr.select.inj bodies
  have named : ∀ name, ¬ ClauseKind.Read (.named name) := by simp [ClauseKind.Read]
  have noHaving : none = select.having :=
    congrArg Select.having (selects .having (by simp [ClauseKind.Read]) rfl)
  have noOrder : [] = q.orderBy :=
    congrArg Query.orderBy (same .orderBy (by simp [ClauseKind.Read]) rfl)
  have noModifiers : [] = modifiers := by
    have grouped := congrArg Select.groupBy (selects .modifiers (by simp [ClauseKind.Read]) rfl)
    rw [Select.drop, valid.grouped] at grouped
    exact (GroupByExpr.expressions.inj grouped).2
  have noOffset : (q.limitClause.map (LimitClause.drop (ClauseKind.Harmless harmless))).map
      LimitClause.read = q.limitClause.map (LimitClause.drop (ClauseKind.Harmless harmless)) := by
    have limits := congrArg Query.limitClause (same .offset (by simp [ClauseKind.Read]) rfl)
    rw [Query.without, Query.drop] at limits
    cases present : q.limitClause with
    | none => rfl
    | some clause =>
        rw [present] at limits
        cases clause with
        | offsetCommaLimit => rfl
        | limitOffset limit offset =>
            have none : none = offset := (LimitClause.limitOffset.inj (Option.some.inj limits)).2
            rw [← none]
            rfl
  have items : (select.projection.map (SelectItem.drop (ClauseKind.Harmless harmless))).map
      SelectItem.read = select.projection.map (SelectItem.drop (ClauseKind.Harmless harmless)) := by
    rw [List.map_map]
    refine List.map_congr_left fun item member => itemRead_of_clean fun kind unread harms => ?_
    have projections := congrArg Select.projection (selects kind unread harms)
    exact List.map_inj_left.mp (projections.trans (List.map_id _).symm) item member
  have tables : dropClauses (ClauseKind.Harmless harmless) clauses = [] :=
    dropClauses_of_clean fun name harms => by
      have froms := congrArg Select.from (selects (.named name) (named name) harms)
      rw [Select.drop, valid.oneTable] at froms
      exact (TableFactor.table.inj (TableWithJoins.mk.inj (List.cons.inj froms).1).1).2
  have others : dropClauses (ClauseKind.Harmless harmless) select.clauses = [] :=
    dropClauses_of_clean fun name harms =>
      congrArg Select.clauses (selects (.named name) (named name) harms)
  have last : dropClauses (ClauseKind.Harmless harmless) q.clauses = [] :=
    dropClauses_of_clean fun name harms =>
      congrArg Query.clauses (same (.named name) (named name) harms)
  rw [Query.drop, valid.body, SetExpr.drop, Select.drop, valid.oneTable, valid.grouped]
  simp only [Query.read, SetExpr.read, Select.read, ClauseKind.Harmless, Bool.false_eq_true,
    if_false, List.map_cons, List.map_nil, TableFactor.drop, TableFactor.read, GroupByExpr.drop,
    GroupByExpr.read, items, noOffset, tables, others, last, ← noHaving, ← noOrder, ← noModifiers]

end Clean

/-- **When nothing in a query is ignored.** Every clause of an accepted query that may change its
rows is reflected in its plan, which says what the query says, if and only if the query has no
HAVING, ORDER BY or OFFSET, no modifiers of GROUP BY, no DISTINCT, FILTER or OVER in a call, and of
the clauses that no stage knows only such that leave the rows of every query as they are. -/
theorem nothingIgnored_iff (harmless : String → Bool) (validated : validate (.query q) = .ok ())
    (analyzed : analyze (.query q) schema = .ok ())
    (lowered : lower (.query q) schema = .ok plan) :
    NothingIgnored harmless schema plan q ↔ Query.Clean harmless q := by
  obtain ⟨select, name, clauses, keys, modifiers, valid⟩ := exists_validSelect validated
  obtain ⟨rfl, visited⟩ := valid.analyzed analyzed
  constructor
  · intro nothing kind has
    by_contra neither
    obtain ⟨unread, harms⟩ := not_or.mp neither
    refine nothing.reads kind has (by simpa using harms) ((lower_drop ?_ q).trans lowered)
    intro read isRead
    refine beq_eq_false_iff_ne.mpr ?_
    rintro rfl
    exact unread isRead
  · intro clean
    constructor
    · intro I table
      rw [← read_of_clean valid clean]
      refine (valid.drop rfl).queryMeaning_read I visited ((lower_drop ?_ q).trans lowered) table
      rintro kind (rfl | rfl | rfl) <;> rfl
    · intro kind has harms
      rcases clean kind has with read | isHarmless
      · exact lower_without_ne read valid lowered has
      · rw [harms] at isHarmless
        cases isHarmless

/-! ## Clauses that are accepted -/

/-- A table with one column. -/
def columnSchema : TableSchema := ⟨"t", [⟨"a", .int .i64⟩]⟩

/-- A query of the table. -/
def columnQuery (item : Expr) (groupBy : List Expr) (having : Option Expr) (orderBy : List Expr)
    (limitClause : Option LimitClause) : Query where
  «with» := false
  body := .select
    { distinct := false
      projection := [.unnamedExpr item]
      «from» := [⟨.table "t" [], []⟩]
      selection := none
      groupBy := .expressions groupBy []
      having := having }
  orderBy := orderBy
  limitClause := limitClause
  fetch := false

/-- `SELECT a FROM t WHERE a > 1 FOR UPDATE`: the lock changes no rows. -/
def lockedQuery : Query where
  «with» := false
  body := .select
    { distinct := false
      projection := [.unnamedExpr (.identifier "a")]
      «from» := [⟨.table "t" [], []⟩]
      selection := some (.binaryOp (.identifier "a") .gt (.value (.number "1")))
      groupBy := .expressions [] []
      having := none }
  orderBy := []
  limitClause := none
  fetch := false
  clauses := [⟨"FOR UPDATE", []⟩]

/-- Nothing in it is ignored. -/
theorem nothingIgnored_iff_locked :
    ∃ plan, NothingIgnored (· == "FOR UPDATE") columnSchema plan lockedQuery := by
  refine ⟨_, (nothingIgnored_iff (· == "FOR UPDATE") (q := lockedQuery) (by decide) (by decide)
    rfl).mpr fun kind has => ?_⟩
  cases kind with
  | selection => exact .inl (.inl rfl)
  | named name =>
      by_cases same : name = "FOR UPDATE"
      · exact .inr (beq_iff_eq.mpr same)
      · refine (has ?_).elim
        have differ : (ClauseKind.named "FOR UPDATE" == ClauseKind.named name) = false :=
          beq_eq_false_iff_ne.mpr fun here => same (ClauseKind.named.inj here).symm
        have kept : dropClauses (· == ClauseKind.named name) lockedQuery.clauses =
            lockedQuery.clauses := by
          simp only [dropClauses, lockedQuery, List.filter_cons, differ, Bool.not_false, if_true,
            List.filter_nil]
        exact congrArg (fun clauses => { lockedQuery with clauses }) kept
  | _ => exact (has rfl).elim

/-- `COUNT(a)`, with DISTINCT and FILTER if they are there. -/
def countOfColumn (distinct : Bool) (filter : Option Expr) : Expr :=
  .function "COUNT" (.list distinct [.unnamed (.identifier "a")]) filter false []

/-- `e > 1`. -/
def aboveOne (e : Expr) : Expr := .binaryOp e .gt (.value (.number "1"))

def havingQuery : Query :=
  columnQuery (.identifier "a") [.identifier "a"] (some (aboveOne (countOfColumn false none)))
    [] none

def orderByQuery : Query :=
  columnQuery (.identifier "a") [] none [.identifier "a"] none

def offsetQuery : Query :=
  columnQuery (.identifier "a") [] none []
    (some (.limitOffset (some (.value (.number "2"))) (some (.value (.number "1")))))

def distinctQuery : Query := columnQuery (countOfColumn true none) [] none [] none

def filterQuery : Query :=
  columnQuery (countOfColumn false (some (aboveOne (.identifier "a")))) [] none [] none

/-- The query is accepted, with a plan that does not say what it says. -/
def Misread (q : Query) : Prop :=
  ∃ plan, validate (.query q) = .ok () ∧ analyze (.query q) columnSchema = .ok () ∧
    lower (.query q) columnSchema = .ok plan ∧ ∀ harmless, ¬ Reflects harmless columnSchema plan q

/-- The rows `2`, `1` and `1`. -/
def threeRows : Table columnSchema where
  rows := [[.typed (.int .i64) (MachineInt.wrap true 63 2)],
    [.typed (.int .i64) (MachineInt.wrap true 63 1)],
    [.typed (.int .i64) (MachineInt.wrap true 63 1)]]
  typed := by
    intro row member
    simp only [List.mem_cons, List.not_mem_nil, or_false] at member
    rcases member with rfl | rfl | rfl
    · exact .cons ⟨_, rfl⟩ .nil
    · exact .cons ⟨_, rfl⟩ .nil
    · exact .cons ⟨_, rfl⟩ .nil

theorem misread_of_rows (plain : ∀ harmless, q.drop (ClauseKind.Harmless harmless) = q)
    (validated : validate (.query q) = .ok ()) (analyzed : analyze (.query q) columnSchema = .ok ())
    (lowered : lower (.query q) columnSchema = .ok plan)
    (differ : Interpretation.exact.queryMeaning threeRows q ≠
      (Interpretation.exact.meaning threeRows plan).map values) : Misread q :=
  ⟨plan, validated, analyzed, lowered, fun harmless reflects =>
    differ (plain harmless ▸ reflects .exact threeRows)⟩

/-- HAVING, ORDER BY, OFFSET, and DISTINCT and FILTER in a call are accepted and ignored. -/
theorem nothingIgnored_fails : Misread havingQuery ∧ Misread orderByQuery ∧ Misread offsetQuery ∧
    Misread distinctQuery ∧ Misread filterQuery := by
  refine ⟨?_, ?_, ?_, ?_, ?_⟩
  · exact misread_of_rows (fun _ => rfl) (by decide) (by decide) rfl (by decide +kernel)
  · exact misread_of_rows (fun _ => rfl) (by decide) (by decide) rfl (by decide +kernel)
  · exact misread_of_rows (fun _ => rfl) (by decide) (by decide) rfl (by decide +kernel)
  · exact misread_of_rows (fun _ => rfl) (by decide) (by decide) rfl (by decide +kernel)
  · exact misread_of_rows (fun _ => rfl) (by decide) (by decide) rfl (by decide +kernel)

end TinyOlap.Logical
