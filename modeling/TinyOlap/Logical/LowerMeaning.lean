import TinyOlap.Library.Refines
import TinyOlap.Logical.Lower
import TinyOlap.Logical.QueryMeaning

/-!
# What the lowering keeps

A query without the clauses that the lowering does not read means what its plan means. The rows
of a plan are looked up by expression and those of a query by column, so the proof goes through
the rows with their columns qualified (`qualify`). A group of a plan has the group columns and
the values of all calls of the SELECT list, and the projection looks these up.
-/

set_option autoImplicit false

namespace TinyOlap.Frontend

/-! ## What the lowering reads -/

/-- A call without DISTINCT and without clauses. -/
def Expr.read : Expr → Expr
  | .function name (.list _ args) _ _ _ => .function name (.list false args) none false []
  | .function name args _ _ _ => .function name args none false []
  | e => e

def SelectItem.read : SelectItem → SelectItem
  | .wildcard _ => .wildcard []
  | .unnamedExpr e => .unnamedExpr e.read
  | .exprWithAlias e aliasName => .exprWithAlias e.read aliasName
  | .other => .other

def TableFactor.read : TableFactor → TableFactor
  | .table name _ => .table name []
  | .other => .other

def GroupByExpr.read : GroupByExpr → GroupByExpr
  | .expressions exprs _ => .expressions exprs []
  | .all => .all

def Select.read (select : Select) : Select :=
  { select with
    projection := select.projection.map SelectItem.read
    «from» := select.from.map fun item => ⟨item.relation.read, item.joins⟩
    groupBy := select.groupBy.read
    having := none
    clauses := [] }

def SetExpr.read : SetExpr → SetExpr
  | .select s => .select s.read
  | body => body

def LimitClause.read : LimitClause → LimitClause
  | .limitOffset limit _ => .limitOffset limit none
  | clause => clause

/-- The query without what the lowering does not read. -/
def Query.read (query : Query) : Query :=
  { query with
    body := query.body.read
    orderBy := []
    limitClause := query.limitClause.map LimitClause.read
    clauses := [] }

end TinyOlap.Frontend

namespace TinyOlap.Logical

open Library Catalog Frontend
open Interpretation (Row)

variable (I : Interpretation) {schema : TableSchema}

/-! ## Leaves -/

theorem literalDatum_of_lower {v : SqlValue} {lit : LiteralValue}
    (lowered : lowerLiteral v = .ok lit) : literalDatum v = some lit.datum := by
  cases v with
  | number text =>
      rw [lowerLiteral] at lowered
      cases asInt : Decimal.parseInt true 63 text with
      | some i =>
          rw [asInt] at lowered
          cases lowered
          rw [literalDatum, asInt]
          rfl
      | none =>
          rw [asInt] at lowered
          cases asFloat : Decimal.parseFloat 11 52 text with
          | some f =>
              rw [asFloat] at lowered
              cases lowered
              rw [literalDatum, asInt, asFloat]
              rfl
          | none =>
              rw [asFloat] at lowered
              cases lowered
  | singleQuotedString s =>
      cases lowered
      rfl
  | boolean b =>
      cases lowered
      rfl
  | null =>
      cases lowered
      rfl
  | other debug => cases lowered

theorem operator_of_lower {op : BinaryOperator} {lowered : BinaryOp}
    (ok : lowerBinaryOp op = .ok lowered) : operator op = some lowered := by
  cases op <;> cases ok <;> rfl

theorem aggregateNamed_of_lower {name : String} {func : AggFunc} (ok : aggFunc name = .ok func) :
    aggregateNamed name = some func := by
  rw [aggFunc] at ok
  rw [aggregateNamed]
  split_ifs at ok with count sum avg min max
  · cases ok
    rw [count]
    rfl
  · cases ok
    rw [sum]
    rfl
  · cases ok
    rw [avg]
    rfl
  · cases ok
    rw [min]
    rfl
  · cases ok
    rw [max]
    rfl

/-! ## Rows -/

/-- The names of a row as a plan has them. -/
def qualify (schema : TableSchema) (row : Bindings) : Row :=
  row.map fun entry => (.column schema.name entry.1, entry.2)

theorem lookup_qualify (row : Bindings) (name : String) :
    (qualify schema row).lookup (.column schema.name name) = row.lookup name := by
  induction row with
  | nil => rfl
  | cons entry row ih =>
      rw [qualify, List.map_cons, List.lookup_cons, List.lookup_cons]
      have tested : (LogicalExpr.column schema.name name ==
          LogicalExpr.column schema.name entry.1) = (name == entry.1) := by
        rw [Bool.eq_iff_iff, beq_iff_eq, beq_iff_eq, LogicalExpr.column.injEq]
        exact and_iff_right rfl
      rw [tested, ← ih]
      rfl

/-- A row has nothing but columns of its table. -/
theorem lookup_qualify_eq_none (row : Bindings) {e : LogicalExpr}
    (other : ∀ name, e ≠ .column schema.name name) : (qualify schema row).lookup e = none := by
  rw [List.lookup_eq_none_iff]
  rintro _ member
  obtain ⟨entry, _, rfl⟩ := List.mem_map.mp member
  simpa using other entry.1

/-- **The value of an expression in a row** is kept. -/
theorem eval_of_lower (row : Bindings) : ∀ {e : Expr} {l : LogicalExpr},
    lowerExpr schema e = .ok l → I.eval (qualify schema row) l = I.rowValue schema row e
  | .identifier name, l, lowered => by
      obtain ⟨col, found, lowered⟩ := Outcome.bind_eq_ok.mp lowered
      cases lowered
      have named := (TableSchema.find_some (Outcome.ofOption_eq_ok.mp found)).2
      rw [named]
      exact lookup_qualify row name
  | .compoundIdentifier parts, l, lowered => by
      match parts with
      | [table, name] =>
          cases lowered
          show (qualify schema row).lookup (.column table name) =
            (columnName schema (.compoundIdentifier [table, name])).bind fun name => row.lookup name
          rw [columnName]
          split
          · rename_i same
            rw [same]
            exact lookup_qualify row name
          · rename_i differ
            exact lookup_qualify_eq_none row fun _ => by simp [differ]
      | [] => cases lowered
      | [_] => cases lowered
      | _ :: _ :: _ :: _ => cases lowered
  | .value v, l, lowered => by
      obtain ⟨lit, read, lowered⟩ := Outcome.bind_eq_ok.mp lowered
      cases lowered
      exact (literalDatum_of_lower read).symm
  | .binaryOp left op right, l, lowered => by
      rw [lowerExpr] at lowered
      obtain ⟨left', first, lowered⟩ := Outcome.bind_eq_ok.mp lowered
      obtain ⟨right', second, lowered⟩ := Outcome.bind_eq_ok.mp lowered
      obtain ⟨op', third, lowered⟩ := Outcome.bind_eq_ok.mp lowered
      cases lowered
      rw [Interpretation.eval, eval_of_lower row first, eval_of_lower row second,
        Interpretation.rowValue, operator_of_lower third]
      rfl
  | .function name args filter overClause clauses, l, lowered => by
      rw [lowerExpr] at lowered
      obtain ⟨func, _, lowered⟩ := Outcome.bind_eq_ok.mp lowered
      obtain ⟨arg, _, lowered⟩ := Outcome.bind_eq_ok.mp lowered
      cases lowered
      exact lookup_qualify_eq_none row nofun
  | .unaryOp .., l, lowered => nomatch lowered
  | .subquery, l, lowered => nomatch lowered
  | .other .., l, lowered => nomatch lowered

theorem filterRows_of_lower {e : Expr} {p : LogicalExpr} (lowered : lowerExpr schema e = .ok p)
    (rows : List Bindings) :
    I.filterRows p (rows.map (qualify schema)) =
      (Interpretation.keep (I.rowValue schema) (some e) rows).map (List.map (qualify schema)) := by
  have tested : (rows.map (qualify schema)).mapM (fun row => do
        let d ← I.eval row p
        let b ← d.asBool
        some (row, b)) =
      (rows.mapM fun row => do
        let d ← I.rowValue schema row e
        let b ← d.asBool
        some (row, b)).map (List.map (Prod.map (qualify schema) id)) := by
    rw [List.mapM_map, ← mapM_map]
    refine mapM_congr fun row _ => ?_
    rw [Function.comp_apply, eval_of_lower I row lowered]
    cases I.rowValue schema row e with
    | none => rfl
    | some d => cases known : d.asBool <;> simp [known]
  rw [Interpretation.filterRows, tested, Interpretation.keep]
  cases rows.mapM (fun row => do
      let d ← I.rowValue schema row e
      let b ← d.asBool
      some (row, b)) with
  | none => rfl
  | some tested =>
      simp only [Option.map_some, Option.bind_eq_bind, Option.bind_some, List.filter_map,
        List.map_map]
      rfl

/-! ## Groups -/

theorem aggregateRows_eq (columns : List String) (aggregates : List LogicalExpr)
    (rows : List Bindings) :
    I.aggregateRows (columns.map (.column schema.name)) aggregates (rows.map (qualify schema)) =
      (Interpretation.groups columns rows).bind fun groups => groups.mapM fun group =>
        (aggregates.mapM (I.aggregateCell (group.rows.map (qualify schema)))).map
          (qualify schema group.key ++ ·) := by
  have keyed : (rows.map (qualify schema)).mapM (fun row =>
        ((columns.map (LogicalExpr.column schema.name)).mapM (I.eval row)).map
          fun key => (key, row)) =
      (rows.mapM fun row : Bindings => (columns.mapM fun name => row.lookup name).map
        fun key => (key, row)).map (List.map (Prod.map id (qualify schema))) := by
    rw [List.mapM_map, ← mapM_map]
    refine mapM_congr fun row _ => ?_
    have values : (columns.map (LogicalExpr.column schema.name)).mapM
        (I.eval (qualify schema row)) = columns.mapM fun name => row.lookup name := by
      rw [List.mapM_map]
      exact mapM_congr fun name _ => lookup_qualify row name
    rw [Function.comp_apply, values, Option.map_map]
    rfl
  rw [Interpretation.aggregateRows, keyed, Interpretation.groups]
  cases rows.mapM (fun row : Bindings => (columns.mapM fun name => row.lookup name).map
      fun key => (key, row)) with
  | none => rfl
  | some keyed =>
      have keys : (keyed.map (Prod.map id (qualify schema))).map Prod.fst = keyed.map Prod.fst := by
        rw [List.map_map]
        rfl
      simp only [Option.map_some, Option.bind_eq_bind, Option.bind_some, keys, List.isEmpty_map]
      rw [List.mapM_map]
      refine mapM_congr fun key _ => ?_
      have group : ((keyed.map (Prod.map id (qualify schema))).filter
            fun entry => entry.1 = key).map Prod.snd =
          ((keyed.filter fun entry => entry.1 = key).map Prod.snd).map (qualify schema) := by
        rw [List.filter_map, List.map_map, List.map_map]
        rfl
      have named : (columns.map (LogicalExpr.column schema.name)).zip key =
          qualify schema (columns.zip key) := by
        rw [qualify, List.zip_map_left]
        rfl
      rw [group, named, Function.comp_apply]
      cases aggregates.mapM (I.aggregateCell _) <;> rfl

/-! ## Projections -/

/-- A call in a group has the aggregate of the group. -/
theorem groupValue_call {name : String} {args : FunctionArguments Expr} {filter : Option Expr}
    {overClause : Bool} {clauses : List (Clause Expr)} {l : LogicalExpr} (group : Group)
    (valid : validateProjectionExpr (.function name args filter overClause clauses) = .ok ())
    (lowered : lowerExpr schema (.function name args filter overClause clauses) = .ok l) :
    I.groupValue schema group (Expr.read (.function name args filter overClause clauses)) =
      (I.aggregateCell (group.rows.map (qualify schema)) l).map Prod.snd := by
  rw [lowerExpr] at lowered
  obtain ⟨func, named, lowered⟩ := Outcome.bind_eq_ok.mp lowered
  obtain ⟨arg', first, lowered⟩ := Outcome.bind_eq_ok.mp lowered
  cases lowered
  have single : ∃ distinct arg, args = .list distinct [.unnamed arg] ∧
      lowerExpr schema arg = .ok arg' := by
    cases args with
    | none => cases first
    | subquery => cases first
    | list distinct args =>
        have length : args.length = 1 := by
          by_contra other
          rw [validateProjectionExpr] at valid
          split at valid
          · cases valid
          · cases valid
        obtain ⟨arg, rfl⟩ := List.length_eq_one_iff.mp length
        cases arg with
        | unnamed e => exact ⟨distinct, e, rfl, first⟩
        | wildcard => cases first
        | named argName e => cases first
  obtain ⟨distinct, arg, rfl, argument⟩ := single
  have values : (group.rows.map (qualify schema)).mapM (fun row => I.eval row arg') =
      group.rows.mapM fun row => I.rowValue schema row arg := by
    rw [List.mapM_map]
    exact mapM_congr fun row _ => eval_of_lower I row argument
  rw [Expr.read, Interpretation.groupValue, aggregateNamed_of_lower named,
    Interpretation.aggregateCell, values]
  simp only [Option.bind_eq_bind, Option.bind_some, Interpretation.keep]
  cases group.rows.mapM (fun row => I.rowValue schema row arg) with
  | none => rfl
  | some values =>
      show I.aggregate func values =
        ((I.aggregate func values).map fun d => (LogicalExpr.aggregate func arg', d)).map Prod.snd
      rw [Option.map_map]
      exact Option.map_id'.symm

/-- The expression of an item. -/
theorem exprValue_of_lower {row : Row} {scope : Interpretation.Scope} {e : Expr}
    {l : List LogicalExpr}
    (value : ∀ l, lowerExpr schema e = .ok l → I.eval row l = scope e.read)
    (lowered : lowerSelectItem schema (.unnamedExpr e) = .ok l) :
    ((scope e.read).map fun d => [d]) = l.mapM (I.eval row) := by
  obtain ⟨l', here, same⟩ := Outcome.bind_eq_ok.mp lowered
  cases same
  rw [List.mapM_cons, List.mapM_nil, value l' here]
  cases scope e.read <;> rfl

/-- An aggregate is looked up under its own name. -/
theorem name_of_aggregateCell {group : List Row} {l : LogicalExpr} {entry : LogicalExpr × Datum}
    (made : I.aggregateCell group l = some entry) :
    entry.1 = l ∧ ∃ func arg, l = .aggregate func arg := by
  cases l with
  | aggregate func arg =>
      obtain ⟨_, _, made⟩ := Option.bind_eq_some_iff.mp made
      obtain ⟨_, _, rfl⟩ := Option.map_eq_some_iff.mp made
      exact ⟨rfl, func, arg, rfl⟩
  | _ => cases made

section Values

variable {I} {group : List Row} {aggregates : List LogicalExpr} {made : Row}

theorem lookup_aggregates_column
    (cells : List.Forall₂ (fun l entry => I.aggregateCell group l = some entry) aggregates made)
    (table name : String) : made.lookup (.column table name) = none := by
  rw [List.lookup_eq_none_iff]
  intro entry member
  obtain ⟨l, _, cell⟩ := exists_of_mem_right cells member
  obtain ⟨named, func, arg, rfl⟩ := name_of_aggregateCell I cell
  rw [named]
  rfl

theorem lookup_aggregates
    (cells : List.Forall₂ (fun l entry => I.aggregateCell group l = some entry) aggregates made)
    {l : LogicalExpr} (member : l ∈ aggregates) :
    made.lookup l = (I.aggregateCell group l).map Prod.snd := by
  induction cells with
  | nil => cases member
  | @cons l' entry aggregates made here _ ih =>
      have named := (name_of_aggregateCell I here).1
      by_cases same : l = l'
      · rw [same, here, ← named, List.lookup_cons, beq_self_eq_true]
        rfl
      · rw [List.lookup_cons, named, beq_eq_false_iff_ne.mpr same]
        exact ih ((List.mem_cons.mp member).resolve_left same)

end Values

/-- The values of the SELECT list, from those of columns and of the expressions in it. -/
theorem itemValues_of_lower {row : Row} {scope : Interpretation.Scope} {items : List SelectItem}
    {lists : List (List LogicalExpr)}
    (lowered : List.Forall₂ (fun item l => lowerSelectItem schema item = .ok l) items lists)
    (columns : ∀ name, I.eval row (.column schema.name name) = scope (.identifier name))
    (exprs : ∀ item ∈ items, ∀ e, (item = .unnamedExpr e ∨ ∃ a, item = .exprWithAlias e a) →
      ∀ l, lowerExpr schema e = .ok l → I.eval row l = scope e.read) :
    ((items.map SelectItem.read).mapM (Interpretation.itemValues schema scope)).map List.flatten =
      lists.flatten.mapM (I.eval row) := by
  have both := (List.forall₂_and_left (p := (· ∈ items)) items lists).mpr ⟨fun _ => id, lowered⟩
  rw [mapM_flatten, List.mapM_map]
  congr 1
  refine mapM_of_forall₂ (both.imp ?_)
  rintro item l ⟨member, lowered⟩
  cases item with
  | wildcard clauses =>
      cases lowered
      rw [List.mapM_map]
      exact mapM_congr fun c _ => (columns c.name).symm
  | unnamedExpr e => exact exprValue_of_lower I (exprs _ member e (.inl rfl)) lowered
  | exprWithAlias e aliasName =>
      exact exprValue_of_lower I (exprs _ member e (.inr ⟨aliasName, rfl⟩)) lowered
  | other => cases lowered

/-- The values of the cells of a projection. -/
theorem values_project (rows : List Row) (projections : List LogicalExpr) :
    (rows.mapM fun row => projections.mapM (I.cell row)).map values =
      rows.mapM fun row => projections.mapM (I.eval row) := by
  have cells : ∀ row, (projections.mapM (I.cell row)).map (List.map Prod.snd) =
      projections.mapM (I.eval row) := by
    intro row
    rw [← mapM_map]
    refine mapM_congr fun e _ => ?_
    rw [Interpretation.cell, Option.map_map]
    exact Option.map_id'
  rw [show values = List.map (List.map Prod.snd) from rfl, ← mapM_map]
  exact mapM_congr fun row _ => cells row

/-! ## Queries -/

/-- A query over rows. -/
theorem rows_of_lower {items : List SelectItem} {lists : List (List LogicalExpr)}
    (lowered : List.Forall₂ (fun item l => lowerSelectItem schema item = .ok l) items lists)
    (noCalls : ∀ item ∈ items, aggregateItem item = none) (rows : List Bindings) :
    ((rows.map (I.rowValue schema)).mapM fun scope =>
        ((items.map SelectItem.read).mapM (Interpretation.itemValues schema scope)).map
          List.flatten) =
      ((rows.map (qualify schema)).mapM fun row => lists.flatten.mapM (I.cell row)).map values := by
  rw [values_project, List.mapM_map, List.mapM_map]
  refine mapM_congr fun row _ => ?_
  refine itemValues_of_lower I lowered (lookup_qualify row) ?_
  intro item member e here l lowered
  have plain : e.read = e := by
    cases e with
    | function name args filter overClause clauses =>
        have none := noCalls item member
        rcases here with rfl | ⟨_, rfl⟩
        · cases none
        · cases none
    | _ => rfl
  rw [plain]
  exact eval_of_lower I row lowered

/-- The call that an item is. -/
theorem aggregateItem_eq_some {item : SelectItem} {call : Expr}
    (found : aggregateItem item = some call) :
    (item = .unnamedExpr call ∨ ∃ a, item = .exprWithAlias call a) ∧
      ∃ name args filter overClause clauses,
        call = .function name args filter overClause clauses := by
  cases item with
  | unnamedExpr e =>
      cases e with
      | function =>
          cases found
          exact ⟨.inl rfl, _, _, _, _, _, rfl⟩
      | _ => cases found
  | exprWithAlias e a =>
      cases e with
      | function =>
          cases found
          exact ⟨.inr ⟨a, rfl⟩, _, _, _, _, _, rfl⟩
      | _ => cases found
  | _ => cases found

theorem eval_column_append {key : Bindings} {made : Row}
    (noColumn : ∀ table name, made.lookup (.column table name) = none) (table name : String) :
    I.eval (qualify schema key ++ made) (.column table name) =
      I.eval (qualify schema key) (.column table name) := by
  show (qualify schema key ++ made).lookup _ = (qualify schema key).lookup _
  rw [List.lookup_append, noColumn, Option.or_none]

/-- The expression is a column. -/
def IsColumn (e : Expr) : Prop :=
  (∃ name, e = .identifier name) ∨ ∃ parts, e = .compoundIdentifier parts

/-- A column of a group. -/
theorem eval_column_of_lower {group : Group} {made : Row} {e : Expr} {l : LogicalExpr}
    (column : IsColumn e)
    (lowered : lowerExpr schema e = .ok l)
    (noColumn : ∀ table name, made.lookup (.column table name) = none) :
    I.eval (qualify schema group.key ++ made) l = I.groupValue schema group e := by
  have kept := eval_of_lower I group.key lowered
  have named : ∃ table name, l = .column table name := by
    rcases column with ⟨name, rfl⟩ | ⟨parts, rfl⟩
    · obtain ⟨col, _, same⟩ := Outcome.bind_eq_ok.mp lowered
      cases same
      exact ⟨_, _, rfl⟩
    · match parts, lowered with
      | [table, name], lowered =>
          cases lowered
          exact ⟨_, _, rfl⟩
  obtain ⟨table, name, rfl⟩ := named
  rw [eval_column_append I noColumn, kept]
  rcases column with ⟨_, rfl⟩ | ⟨_, rfl⟩
  · rfl
  · rfl

/-- The expressions of a valid SELECT list. -/
theorem column_or_call {e : Expr} (valid : validateProjectionExpr e = .ok ()) :
    IsColumn e ∨
      ∃ name args filter overClause clauses, e = .function name args filter overClause clauses := by
  cases e with
  | identifier name => exact .inl (.inl ⟨name, rfl⟩)
  | compoundIdentifier parts => exact .inl (.inr ⟨parts, rfl⟩)
  | function => exact .inr ⟨_, _, _, _, _, rfl⟩
  | _ => cases valid

/-- The results of a group. -/
theorem group_of_lower {items : List SelectItem} {lists : List (List LogicalExpr)}
    (lowered : List.Forall₂ (fun item l => lowerSelectItem schema item = .ok l) items lists)
    (valid : ∀ item ∈ items, validateSelectItem item = .ok ()) {aggregates : List LogicalExpr}
    (collected : collectAggregates items schema = .ok aggregates) (group : Group) :
    ((items.map SelectItem.read).mapM
        (Interpretation.itemValues schema (I.groupValue schema group))).map List.flatten =
      ((aggregates.mapM (I.aggregateCell (group.rows.map (qualify schema)))).map
        (qualify schema group.key ++ ·)).bind fun row => lists.flatten.mapM (I.eval row) := by
  have calls := Outcome.mapM_eq_ok collected
  have validExpr : ∀ item ∈ items, ∀ e, (item = .unnamedExpr e ∨ ∃ a, item = .exprWithAlias e a) →
      validateProjectionExpr e = .ok () := by
    intro item member e here
    have ok := valid item member
    rcases here with rfl | ⟨_, rfl⟩
    · exact ok
    · exact ok
  cases cells : aggregates.mapM (I.aggregateCell (group.rows.map (qualify schema))) with
  | none =>
      obtain ⟨l, member, undefined⟩ := mapM_eq_none.mp cells
      obtain ⟨call, inside, lowersCall⟩ := exists_of_mem_right calls member
      obtain ⟨item, here, isCall⟩ := List.mem_filterMap.mp inside
      obtain ⟨source, name, args, filter, overClause, clauses, rfl⟩ := aggregateItem_eq_some isCall
      have value := groupValue_call I group (validExpr item here _ source) lowersCall
      rw [undefined] at value
      have lost : Interpretation.itemValues schema (I.groupValue schema group) item.read =
          none := by
        rcases source with rfl | ⟨_, rfl⟩
        · rw [SelectItem.read, Interpretation.itemValues, value]
          rfl
        · rw [SelectItem.read, Interpretation.itemValues, value]
          rfl
      rw [mapM_eq_none.mpr ⟨_, List.mem_map_of_mem here, lost⟩]
      rfl
  | some made =>
      have named := forall₂_of_mapM cells
      refine itemValues_of_lower I lowered (fun name => ?_)
        fun item member e here l lowersItem => ?_
      · rw [eval_column_append I (lookup_aggregates_column named)]
        exact lookup_qualify group.key name
      · rcases column_or_call (validExpr item member e here) with column | call
        · have plain : e.read = e := by
            rcases column with ⟨_, rfl⟩ | ⟨_, rfl⟩
            · rfl
            · rfl
          rw [plain]
          exact eval_column_of_lower I column lowersItem (lookup_aggregates_column named)
        · obtain ⟨name, args, filter, overClause, clauses, rfl⟩ := call
          have isCall : aggregateItem item =
              some (.function name args filter overClause clauses) := by
            rcases here with rfl | ⟨_, rfl⟩
            · rfl
            · rfl
          obtain ⟨l', inside, lowersCall⟩ :=
            exists_of_mem_left calls (List.mem_filterMap.mpr ⟨item, member, isCall⟩)
          cases Outcome.ok.inj (lowersItem.symm.trans lowersCall)
          rw [groupValue_call I group (validExpr item member _ here) lowersItem,
            ← lookup_aggregates named inside]
          rw [lowerExpr] at lowersItem
          obtain ⟨func, _, lowersItem⟩ := Outcome.bind_eq_ok.mp lowersItem
          obtain ⟨arg, _, lowersItem⟩ := Outcome.bind_eq_ok.mp lowersItem
          cases lowersItem
          show (qualify schema group.key ++ made).lookup _ = _
          rw [List.lookup_append, lookup_qualify_eq_none group.key (by simp), Option.none_or]

/-! ## Queries -/

theorem sorted_nil (scopes : List Interpretation.Scope) : I.sorted [] scopes = some scopes := by
  have keyed : (scopes.mapM fun scope =>
      (([] : List Expr).mapM scope).map fun key => (key, scope)) =
        some (scopes.map fun scope => ([], scope)) := by
    induction scopes with
    | nil => rfl
    | cons scope scopes ih =>
        rw [List.mapM_cons, ih]
        rfl
  have ordered : (scopes.map fun scope => (([] : List Datum), scope)).Pairwise
      fun a b => I.before a.1 b.1 = true := by
    rw [List.pairwise_map]
    exact List.pairwise_of_forall fun _ _ => rfl
  rw [Interpretation.sorted, keyed]
  simp only [Option.bind_eq_bind, Option.bind_some]
  rw [List.Pairwise.insertionSort_eq ordered, List.map_map]
  exact congrArg some (List.map_id _)

/-- The parts of a valid query. -/
structure ValidSelect (q : Query) (select : Select) (table : String)
    (clauses : List (Clause Expr)) (keys : List Expr) (modifiers : List String) : Prop where
  body : q.body = .select select
  noWith : q.with = false
  noFetch : q.fetch = false
  noDistinct : select.distinct = false
  oneTable : select.from = [⟨.table table clauses, []⟩]
  grouped : select.groupBy = .expressions keys modifiers
  items : ∀ item ∈ select.projection, validateSelectItem item = .ok ()
  columns : ∀ e ∈ keys, IsColumn e

theorem exists_validSelect {q : Query} (valid : validate (.query q) = .ok ()) :
    ∃ select table clauses keys modifiers, ValidSelect q select table clauses keys modifiers := by
  rw [validate, validateQuery] at valid
  split_ifs at valid with noWith noFetch
  cases body : q.body with
  | values rows =>
      rw [body] at valid
      cases valid
  | other =>
      rw [body] at valid
      cases valid
  | select select =>
      rw [body] at valid
      replace valid : validateSelect select = .ok () := valid
      obtain ⟨distinct, projection, from', selection, groupBy, having', others⟩ := select
      cases distinct with
      | true => cases valid
      | false =>
          simp only [validateSelect, Bool.false_eq_true, if_false, Outcome.ok_bind] at valid
          have oneTable : ∃ table clauses, from' = [⟨.table table clauses, []⟩] := by
            rcases from' with _ | ⟨⟨⟨table, clauses⟩ | _, _ | _⟩, _ | _⟩
            · cases valid
            · exact ⟨table, clauses, rfl⟩
            all_goals cases valid
          obtain ⟨table, clauses, rfl⟩ := oneTable
          obtain ⟨_, items, valid⟩ := Outcome.bind_eq_ok.mp valid
          have grouped : validateGroupBy groupBy = .ok () := by
            cases selection with
            | none => exact valid
            | some predicate => exact (Outcome.bind_eq_ok.mp valid).choose_spec.2
          match groupBy, grouped with
          | .expressions keys modifiers, grouped =>
              refine ⟨_, table, clauses, keys, modifiers, body, by simpa using noWith,
                by simpa using noFetch, rfl, rfl, rfl, Outcome.forM_eq_ok.mp items, ?_⟩
              intro e member
              have accepted := Outcome.forM_eq_ok.mp grouped e member
              cases e with
              | identifier name => exact .inl ⟨name, rfl⟩
              | compoundIdentifier parts => exact .inr ⟨parts, rfl⟩
              | _ => cases accepted

section Accepted

variable {q : Query} {select : Select} {table : String} {clauses : List (Clause Expr)}
  {keys : List Expr} {modifiers : List String}

/-- What the analyzer has found in a valid query. -/
theorem ValidSelect.analyzed (valid : ValidSelect q select table clauses keys modifiers)
    (analyzed : analyze (.query q) schema = .ok ()) :
    table = schema.name ∧ ∀ e ∈ keys, preVisitExpr schema e = .ok () := by
  obtain ⟨_, visited, _⟩ := Outcome.bind_eq_ok.mp analyzed
  rw [valid.body] at visited
  obtain ⟨_, _, visited⟩ := Outcome.bind_eq_ok.mp visited
  obtain ⟨_, tables, visited⟩ := Outcome.bind_eq_ok.mp visited
  obtain ⟨_, _, exprs⟩ := Outcome.bind_eq_ok.mp visited
  constructor
  · have known := Outcome.forM_eq_ok.mp tables (.table table clauses)
      (by rw [valid.oneTable]; exact List.mem_cons_self)
    by_contra unknown
    rw [preVisitTableFactor, if_pos unknown] at known
    cases known
  · intro e member
    refine Outcome.forM_eq_ok.mp exprs e (List.mem_flatMap.mpr ⟨e, ?_, ?_⟩)
    · rw [valid.grouped]
      simp [GroupByExpr.exprs, member]
    · rcases valid.columns e member with ⟨_, rfl⟩ | ⟨_, rfl⟩
      · exact List.mem_cons_self
      · exact List.mem_cons_self

/-- A group column. -/
theorem columnName_of_lower {e : Expr} {l : LogicalExpr} (column : IsColumn e)
    (visited : preVisitExpr schema e = .ok ()) (lowered : lowerExpr schema e = .ok l) :
    ∃ name, columnName schema e = some name ∧ l = .column schema.name name := by
  rcases column with ⟨name, rfl⟩ | ⟨parts, rfl⟩
  · obtain ⟨col, found, same⟩ := Outcome.bind_eq_ok.mp lowered
    cases same
    have named := (TableSchema.find_some (Outcome.ofOption_eq_ok.mp found)).2
    exact ⟨name, rfl, by rw [named]⟩
  · match parts, visited, lowered with
    | [table, name], visited, lowered =>
        cases lowered
        obtain ⟨_, resolved, _⟩ := Outcome.bind_eq_ok.mp visited
        rw [resolveColumnExpr] at resolved
        split_ifs at resolved with known
        rw [not_not] at known
        exact ⟨name, by rw [columnName, if_pos known], by rw [known]⟩

/-- The scan, and the filter above it. -/
def lowerInput (selection : Option Expr) (schema : TableSchema) : TextResult LogicalPlan :=
  match selection with
  | some predicate => do
      let predicate ← lowerExpr schema predicate
      .ok (.filter predicate (.scan schema.name))
  | none => .ok (.scan schema.name)

/-- The limit above a plan. -/
def lowerTop (limitClause : Option LimitClause) (below : LogicalPlan) : TextResult LogicalPlan :=
  match limitClause with
  | some clause => do
      let n ← lowerLimit clause
      .ok (.limit n below)
  | none => .ok below

/-- A plan is lowered from the scan upwards. -/
theorem lowerQuery_eq (body : q.body = .select select) : lowerQuery q schema = (do
    let input ← lowerInput select.selection schema
    let groupBy ← lowerGroupBy select.groupBy schema
    let aggregates ← collectAggregates select.projection schema
    let projections ← lowerProjection select.projection schema
    lowerTop q.limitClause (.project projections
      (if groupBy.isEmpty && aggregates.isEmpty then input
        else .aggregate groupBy aggregates input))) := by
  rw [lowerQuery, body]
  cases selection : select.selection with
  | none =>
      cases q.limitClause <;> simp only [selection, lowerInput, lowerTop]
  | some predicate =>
      simp only [selection, lowerInput]
      cases lowerExpr schema predicate with
      | err e => rfl
      | panic => rfl
      | ok predicate =>
          cases q.limitClause <;> simp only [lowerTop, Outcome.ok_bind]

/-- The parts of a plan. -/
structure LoweredSelect (schema : TableSchema) (select : Select) (limitClause : Option LimitClause)
    (plan input : LogicalPlan) (groupBy aggregates projections : List LogicalExpr) : Prop where
  filtered : lowerInput select.selection schema = .ok input
  grouped : lowerGroupBy select.groupBy schema = .ok groupBy
  collected : collectAggregates select.projection schema = .ok aggregates
  projected : lowerProjection select.projection schema = .ok projections
  limited : lowerTop limitClause (.project projections
    (if groupBy.isEmpty && aggregates.isEmpty then input
      else .aggregate groupBy aggregates input)) = .ok plan

theorem exists_loweredSelect {plan : LogicalPlan} (body : q.body = .select select)
    (lowered : lower (.query q) schema = .ok plan) :
    ∃ input groupBy aggregates projections, LoweredSelect schema select q.limitClause plan input
      groupBy aggregates projections := by
  rw [lower, lowerQuery_eq body] at lowered
  obtain ⟨input, filtered, lowered⟩ := Outcome.bind_eq_ok.mp lowered
  obtain ⟨groupBy, grouped, lowered⟩ := Outcome.bind_eq_ok.mp lowered
  obtain ⟨aggregates, collected, lowered⟩ := Outcome.bind_eq_ok.mp lowered
  obtain ⟨projections, projected, limited⟩ := Outcome.bind_eq_ok.mp lowered
  exact ⟨input, groupBy, aggregates, projections, filtered, grouped, collected, projected, limited⟩

theorem isCall_read {e : Expr} (call : isCall e = true) :
    isCall e.read = true ∧ e.read ∈ e.read.visited := by
  cases e with
  | function name args filter overClause clauses =>
      cases args with
      | list distinct args => exact ⟨rfl, List.mem_cons_self⟩
      | none => exact ⟨rfl, List.mem_cons_self⟩
      | subquery => exact ⟨rfl, List.mem_cons_self⟩
  | _ => cases call

/-- A valid SELECT list has a call in it just if an item is a call. -/
theorem any_isCall {items : List SelectItem}
    (valid : ∀ item ∈ items, validateSelectItem item = .ok ()) :
    ((((items.map SelectItem.read).flatMap SelectItem.exprs).flatMap Expr.visited).any isCall =
      true) ↔ ∃ item ∈ items, (aggregateItem item).isSome := by
  rw [List.any_eq_true]
  constructor
  · rintro ⟨inner, member, call⟩
    obtain ⟨e, inside, visited⟩ := List.mem_flatMap.mp member
    obtain ⟨read, inItems, exprs⟩ := List.mem_flatMap.mp inside
    obtain ⟨item, here, rfl⟩ := List.mem_map.mp inItems
    have projected : ∀ source, validateProjectionExpr source = .ok () → e = source.read →
        isCall source = true := by
      rintro source ok rfl
      rcases column_or_call ok with (⟨_, rfl⟩ | ⟨_, rfl⟩) | ⟨_, _, _, _, _, rfl⟩
      · cases List.mem_singleton.mp visited
        cases call
      · cases List.mem_singleton.mp visited
        cases call
      · rfl
    refine ⟨item, here, ?_⟩
    have ok := valid item here
    cases item with
    | wildcard clauses => cases exprs
    | other => cases exprs
    | unnamedExpr source =>
        have isCall := projected source ok (List.mem_singleton.mp exprs)
        cases source with
        | function => rfl
        | _ => cases isCall
    | exprWithAlias source aliasName =>
        have isCall := projected source ok (List.mem_singleton.mp exprs)
        cases source with
        | function => rfl
        | _ => cases isCall
  · rintro ⟨item, here, some⟩
    obtain ⟨call, found⟩ := Option.isSome_iff_exists.mp some
    obtain ⟨source, name, args, filter, overClause, clauses, rfl⟩ := aggregateItem_eq_some found
    obtain ⟨isCall, self⟩ := isCall_read (e := .function name args filter overClause clauses) rfl
    refine ⟨_, List.mem_flatMap.mpr ⟨_, List.mem_flatMap.mpr
      ⟨_, List.mem_map_of_mem here, ?_⟩, self⟩, isCall⟩
    rcases source with rfl | ⟨_, rfl⟩
    · exact List.mem_singleton.mpr rfl
    · exact List.mem_singleton.mpr rfl

/-- A plan has an aggregation just if the results are of groups. -/
theorem ofGroups_read {groupBy aggregates : List LogicalExpr}
    (valid : ∀ item ∈ select.projection, validateSelectItem item = .ok ())
    (grouped : List.Forall₂ (fun e l => lowerExpr schema e = .ok l) keys groupBy)
    (collected : collectAggregates select.projection schema = .ok aggregates) :
    ofGroups select.read keys = !(groupBy.isEmpty && aggregates.isEmpty) := by
  have calls := Outcome.mapM_eq_ok collected
  have callsEmpty := isEmpty_of_forall₂ calls
  have anyCall : (((select.projection.map SelectItem.read).flatMap
      SelectItem.exprs).flatMap Expr.visited).any isCall = !aggregates.isEmpty := by
    rw [Bool.eq_iff_iff, any_isCall valid, ← callsEmpty, Bool.not_eq_true',
      List.isEmpty_eq_false_iff, Ne, List.filterMap_eq_nil_iff]
    simp [Option.isSome_iff_ne_none]
  rw [ofGroups, isEmpty_of_forall₂ grouped, show select.read.projection =
    select.projection.map SelectItem.read from rfl, anyCall]
  cases groupBy.isEmpty <;> cases aggregates.isEmpty <;> rfl

/-- The rows of a table, by column. -/
def bindings (table : Table schema) : List Bindings :=
  table.rows.map ((schema.columns.map ColumnSchema.name).zip ·)

theorem meaning_scan (table : Table schema) :
    I.meaning table (.scan schema.name) = some ((bindings table).map (qualify schema)) := by
  rw [Interpretation.meaning, if_pos rfl, bindings, List.map_map]
  congr 1
  refine List.map_congr_left fun row _ => ?_
  rw [Function.comp_apply, qualify, List.zip_map_left, List.zip_map_left, List.map_map]
  rfl

theorem LoweredSelect.meaning_input {limitClause : Option LimitClause} {plan input : LogicalPlan}
    {groupBy aggregates projections : List LogicalExpr} (table : Table schema)
    (lowered : LoweredSelect schema select limitClause plan input groupBy aggregates projections) :
    I.meaning table input =
      (Interpretation.keep (I.rowValue schema) select.selection (bindings table)).map
        (List.map (qualify schema)) := by
  have filtered := lowered.filtered
  cases selection : select.selection with
  | none =>
      rw [selection] at filtered
      cases filtered
      exact meaning_scan I table
  | some e =>
      rw [selection] at filtered
      obtain ⟨p, lowersPredicate, same⟩ := Outcome.bind_eq_ok.mp filtered
      cases same
      rw [Interpretation.meaning, meaning_scan]
      exact filterRows_of_lower I lowersPredicate (bindings table)

/-- The group columns of a plan are those of the query. -/
theorem exists_columns {groupBy : List LogicalExpr}
    (lowered : List.Forall₂ (fun e l => lowerExpr schema e = .ok l) keys groupBy)
    (columns : ∀ e ∈ keys, IsColumn e) (visited : ∀ e ∈ keys, preVisitExpr schema e = .ok ()) :
    ∃ names, keys.mapM (columnName schema) = some names ∧
      groupBy = names.map (.column schema.name) := by
  induction lowered with
  | nil => exact ⟨[], rfl, rfl⟩
  | @cons e l keys groupBy here _ ih =>
      obtain ⟨names, found, rfl⟩ := ih (fun e' member => columns e' (List.mem_cons_of_mem _ member))
        fun e' member => visited e' (List.mem_cons_of_mem _ member)
      obtain ⟨name, named, rfl⟩ := columnName_of_lower (columns e List.mem_cons_self)
        (visited e List.mem_cons_self) here
      refine ⟨name :: names, ?_, rfl⟩
      rw [List.mapM_cons, named, found]
      rfl

/-- The rows of a query without LIMIT. -/
theorem outputs_of_lower {limitClause : Option LimitClause} {plan input : LogicalPlan}
    {groupBy aggregates projections : List LogicalExpr} {name : String} (table : Table schema)
    (valid : ValidSelect q select name clauses keys modifiers)
    (visited : ∀ e ∈ keys, preVisitExpr schema e = .ok ())
    (lowered : LoweredSelect schema select limitClause plan input groupBy aggregates projections) :
    ((I.scopes schema select.read keys (bindings table)).bind fun scopes =>
        scopes.mapM fun scope =>
          (select.read.projection.mapM (Interpretation.itemValues schema scope)).map List.flatten) =
      (I.meaning table (.project projections
        (if groupBy.isEmpty && aggregates.isEmpty then input
          else .aggregate groupBy aggregates input))).map values := by
  have groupedKeys : List.Forall₂ (fun e l => lowerExpr schema e = .ok l) keys groupBy := by
    have grouped := lowered.grouped
    rw [valid.grouped] at grouped
    exact Outcome.mapM_eq_ok grouped
  obtain ⟨lists, items, rfl⟩ : ∃ lists, List.Forall₂
      (fun item l => lowerSelectItem schema item = .ok l) select.projection lists ∧
        projections = lists.flatten := by
    have projected := lowered.projected
    rw [lowerProjection] at projected
    cases mapped : select.projection.mapM (lowerSelectItem schema) with
    | err e =>
        rw [mapped] at projected
        cases projected
    | panic =>
        rw [mapped] at projected
        cases projected
    | ok lists =>
        rw [mapped] at projected
        cases projected
        exact ⟨lists, Outcome.mapM_eq_ok mapped, rfl⟩
  have ofGroups := ofGroups_read valid.items groupedKeys lowered.collected
  have inputs := lowered.meaning_input I table
  rw [Interpretation.scopes, ofGroups, show select.read.selection = select.selection from rfl]
  cases kept : Interpretation.keep (I.rowValue schema) select.selection (bindings table) with
  | none =>
      rw [kept, Option.map_none] at inputs
      cases groupBy.isEmpty && aggregates.isEmpty with
      | true =>
          rw [if_pos rfl, Interpretation.meaning, inputs]
          rfl
      | false =>
          rw [if_neg Bool.false_ne_true, Interpretation.meaning, Interpretation.meaning, inputs]
          rfl
  | some rows =>
      rw [kept, Option.map_some] at inputs
      cases empty : groupBy.isEmpty && aggregates.isEmpty with
      | true =>
          obtain ⟨_, noAggregates⟩ := Bool.and_eq_true_iff.mp empty
          have noCalls : ∀ item ∈ select.projection, aggregateItem item = none := by
            rw [← List.filterMap_eq_nil_iff, ← List.isEmpty_iff,
              isEmpty_of_forall₂ (Outcome.mapM_eq_ok lowered.collected)]
            exact noAggregates
          rw [if_pos rfl, Interpretation.meaning, inputs]
          exact rows_of_lower I items noCalls rows
      | false =>
          obtain ⟨names, found, rfl⟩ := exists_columns groupedKeys valid.columns visited
          rw [if_neg Bool.false_ne_true, Interpretation.meaning, Interpretation.meaning, inputs]
          simp only [Option.bind_eq_bind, Option.bind_some, Bool.not_false, if_true, found]
          rw [aggregateRows_eq]
          cases Interpretation.groups names rows with
          | none => rfl
          | some groups =>
              simp only [Option.bind_some, Interpretation.keep, Select.read]
              rw [List.mapM_map, Option.map_bind]
              simp only [Function.comp_def, values_project]
              rw [← mapM_bind]
              exact mapM_congr fun group _ => group_of_lower
                I items valid.items lowered.collected group

/-- LIMIT takes as many rows in a query as in its plan. -/
theorem slice_of_lower {clause : LimitClause} {n : Nat} (lowered : lowerLimit clause = .ok n)
    {α : Type} (rows : List α) : slice rows (some clause.read) = some (rows.take n) := by
  cases clause with
  | offsetCommaLimit => cases lowered
  | limitOffset limit offset =>
      match limit, lowered with
      | some (.value (.number text)), lowered =>
          rw [lowerLimit] at lowered
          cases read : Decimal.parseInt false 63 text with
          | none =>
              rw [read] at lowered
              cases lowered
          | some limit =>
              rw [read] at lowered
              cases lowered
              show ((Decimal.parseInt false 63 text).map fun n => n.val.toNat).map
                (fun n => (rows.drop 0).take n) = _
              rw [read]
              rfl

theorem queryMeaning_eq (valid : ValidSelect q select schema.name clauses keys modifiers)
    (table : Table schema) :
    I.queryMeaning table q.read =
      ((I.scopes schema select.read keys (bindings table)).bind fun scopes =>
        scopes.mapM fun scope =>
          (select.read.projection.mapM (Interpretation.itemValues schema scope)).map
            List.flatten).bind fun outputs => slice outputs
              (q.limitClause.map LimitClause.read) := by
  obtain ⟨body, noWith, noFetch, noDistinct, oneTable, grouped, _, _⟩ := valid
  obtain ⟨_, _, orderBy, limitClause, _, others⟩ := q
  obtain ⟨_, projection, _, selection, _, having', selectClauses⟩ := select
  subst body noWith noFetch noDistinct oneTable grouped
  show (do
    guard (schema.name = schema.name)
    let scopes ← I.scopes schema _ keys (bindings table)
    let scopes ← I.sorted [] scopes
    let outputs ← scopes.mapM fun scope =>
      ((projection.map SelectItem.read).mapM (Interpretation.itemValues schema scope)).map
        List.flatten
    slice outputs (limitClause.map LimitClause.read)) = _
  simp only [guard, if_true, sorted_nil]
  cases I.scopes schema _ keys (bindings table) with
  | none => rfl
  | some scopes => rfl

/-- **A query without what the lowering does not read means what its plan means**, with the group
columns as the analyzer has found them. -/
theorem ValidSelect.queryMeaning_read {plan : LogicalPlan}
    (valid : ValidSelect q select schema.name clauses keys modifiers)
    (visited : ∀ e ∈ keys, preVisitExpr schema e = .ok ())
    (lowered : lower (.query q) schema = .ok plan) (table : Table schema) :
    I.queryMeaning table q.read = (I.meaning table plan).map values := by
  obtain ⟨input, groupBy, aggregates, projections, parts⟩ := exists_loweredSelect valid.body lowered
  have outputs := outputs_of_lower I table valid visited parts
  have limited := parts.limited
  rw [queryMeaning_eq I valid, outputs]
  generalize LogicalPlan.project projections _ = below at limited ⊢
  cases present : q.limitClause with
  | none =>
      rw [present] at limited
      cases limited
      cases I.meaning table plan <;> rfl
  | some clause =>
      rw [present] at limited
      obtain ⟨n, read, same⟩ := Outcome.bind_eq_ok.mp limited
      cases same
      rw [Interpretation.meaning]
      cases I.meaning table below with
      | none => rfl
      | some rows =>
          show slice (values rows) (some clause.read) = _
          rw [slice_of_lower read, values, ← List.map_take]
          rfl

end Accepted

end TinyOlap.Logical
