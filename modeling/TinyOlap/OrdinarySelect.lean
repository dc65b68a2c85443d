import TinyOlap.Execution.MergedTree
import TinyOlap.Logical.LowerMeaning
import TinyOlap.AggregatePlan

/-!
# Ordinary queries

What the validator and the analyzer let through is planned without regard to what it says, and
some of it cannot be run: a comparison with NULL, an aggregate of an aggregate, GROUP BY columns
that are not selected. All other queries are ordinary, whatever their SELECT list, their WHERE
clause and the clauses that are not read. Their plans have one shape: a scan of the columns that
are named, a filter without NULL if there is one, an aggregation of columns if the query is of
groups, a projection, a LIMIT.
-/

set_option autoImplicit false

namespace TinyOlap.Logical

open Library Catalog Frontend

/-! ## Predicates without NULL -/

/-- NULL is among the literals of an expression. -/
def namesNull : LogicalExpr → Bool
  | .literal .null => true
  | .literal _ | .column .. | .aggregate .. => false
  | .binaryOp left _ right => namesNull left || namesNull right
  | .cast expr _ => namesNull expr

variable {schema : TableSchema}

theorem namesNull_of_lower : ∀ {e : Expr} {l : LogicalExpr}, lowerExpr schema e = .ok l →
    .value .null ∉ e.visited → namesNull l = false
  | .identifier name, l, lowered, _ => by
      obtain ⟨col, _, lowered⟩ := Outcome.bind_eq_ok.mp lowered
      cases lowered
      rfl
  | .compoundIdentifier parts, l, lowered, _ => by
      match parts with
      | [table, name] =>
          cases lowered
          rfl
      | [] => cases lowered
      | [_] => cases lowered
      | _ :: _ :: _ :: _ => cases lowered
  | .value v, l, lowered, clear => by
      obtain ⟨lit, read, lowered⟩ := Outcome.bind_eq_ok.mp lowered
      cases lowered
      cases lit with
      | null =>
          cases v with
          | null => exact (clear (List.mem_singleton_self _)).elim
          | number n =>
              rw [lowerLiteral] at read
              split at read
              · cases read
              · split at read <;> cases read
          | singleQuotedString s => cases read
          | boolean b => cases read
          | other debug => cases read
      | _ => rfl
  | .binaryOp left op right, l, lowered, clear => by
      rw [lowerExpr] at lowered
      obtain ⟨left', first, lowered⟩ := Outcome.bind_eq_ok.mp lowered
      obtain ⟨right', second, lowered⟩ := Outcome.bind_eq_ok.mp lowered
      obtain ⟨op', _, lowered⟩ := Outcome.bind_eq_ok.mp lowered
      cases lowered
      rw [Expr.visited, List.mem_cons, List.mem_append, not_or, not_or] at clear
      rw [namesNull, namesNull_of_lower first clear.2.1, namesNull_of_lower second clear.2.2]
      rfl
  | .function name args filter overClause clauses, l, lowered, _ => by
      rw [lowerExpr] at lowered
      obtain ⟨func, _, lowered⟩ := Outcome.bind_eq_ok.mp lowered
      obtain ⟨arg, _, lowered⟩ := Outcome.bind_eq_ok.mp lowered
      cases lowered
      rfl
  | .unaryOp .., l, lowered, _ => nomatch lowered
  | .subquery, l, lowered, _ => nomatch lowered
  | .other .., l, lowered, _ => nomatch lowered

/-- Coercion puts literals under casts, and adds none. -/
theorem namesNull_coerceExpr {e coerced : LogicalExpr} (made : coerceExpr schema e = .ok coerced) :
    namesNull coerced = namesNull e := by
  induction e generalizing coerced with
  | column table col =>
      cases made
      rfl
  | literal lit =>
      cases made
      rfl
  | aggregate func arg _ =>
      cases made
      rfl
  | cast expr target ih =>
      obtain ⟨inner, below, made⟩ := Outcome.bind_eq_ok.mp made
      cases made
      rw [namesNull, namesNull, ih below]
  | binaryOp left op right ihLeft ihRight =>
      obtain ⟨left', first, made⟩ := Outcome.bind_eq_ok.mp made
      obtain ⟨right', second, made⟩ := Outcome.bind_eq_ok.mp made
      rw [namesNull, ← ihLeft first, ← ihRight second]
      split at made
      · unfold coerceComparison at made
        split at made
        · obtain ⟨target, _, made⟩ := Outcome.bind_eq_ok.mp made
          cases made
          rfl
        · obtain ⟨target, _, made⟩ := Outcome.bind_eq_ok.mp made
          cases made
          rfl
        · cases made
          rfl
      · cases made
        rfl

/-- Folding adds no NULL. -/
theorem namesNull_foldExpr {e : LogicalExpr} (clear : namesNull e = false) :
    namesNull (foldExpr e) = false := by
  induction e with
  | column table col => rfl
  | literal lit => exact clear
  | aggregate func arg _ => rfl
  | cast expr target _ => exact clear
  | binaryOp left op right ihLeft ihRight =>
      obtain ⟨clearLeft, clearRight⟩ := Bool.or_eq_false_iff.mp clear
      have both : (namesNull (foldExpr left) || namesNull (foldExpr right)) = false := by
        rw [ihLeft clearLeft, ihRight clearRight]
        rfl
      simp only [foldExpr]
      split
      · split
        · rfl
        · exact both
      · exact ihRight clearRight
      · rfl
      · rfl
      · exact ihRight clearRight
      · exact both

/-- **What the optimizer makes of a scan with a filter without NULL.** -/
theorem optimize_input {selection : Option Expr} {input optimized : LogicalPlan}
    (lowered : lowerInput selection schema = .ok input)
    (clear : ∀ e ∈ selection, .value .null ∉ e.visited)
    (made : optimize schema input = .ok optimized) :
    optimized = .scan schema.name ∨
      ∃ p, optimized = .filter p (.scan schema.name) ∧ namesNull p = false := by
  cases selection with
  | none =>
      cases lowered
      cases made
      exact .inl rfl
  | some e =>
      obtain ⟨p, lowersPredicate, same⟩ := Outcome.bind_eq_ok.mp lowered
      cases same
      rw [optimize_eq] at made
      obtain ⟨folded, made, eliminated⟩ := Outcome.bind_eq_ok.mp made
      obtain ⟨coerced, made, folds⟩ := Outcome.bind_eq_ok.mp made
      simp only [typeCoercion, rewrite, Outcome.ok_bind] at made
      obtain ⟨q, coerces, same⟩ := Outcome.bind_eq_ok.mp made
      cases same
      cases folds
      have noNull : namesNull (foldExpr q) = false := by
        refine namesNull_foldExpr ?_
        rw [namesNull_coerceExpr coerces]
        exact namesNull_of_lower lowersPredicate (clear e rfl)
      generalize foldExpr q = folded at eliminated noNull
      by_cases always : folded = .literal (.bool true)
      · subst always
        cases eliminated
        exact .inl rfl
      · refine .inr ⟨folded, ?_, noNull⟩
        have kept : eliminateTrueFilter.apply (.filter folded (.scan schema.name)) =
            .ok (.filter folded (.scan schema.name)) := by
          simp only [eliminateTrueFilter, rewrite, Outcome.ok_bind]
          split
          · rename_i same
            cases same
            exact (always rfl).elim
          · rfl
        exact Outcome.ok.inj (eliminated.symm.trans kept)

/-! ## Ordinary queries -/

/-- The expression of an item of the SELECT list. -/
def itemExpr : SelectItem → Option Expr
  | .unnamedExpr e | .exprWithAlias e _ => some e
  | .wildcard _ | .other => none

/-- **A query that can be run**: it selects something, the WHERE clause does not compare with NULL,
aggregates are of columns, and the GROUP BY columns are selected, none of them with the name of an
aggregate. -/
structure Ordinary (schema : TableSchema) (select : Select) : Prop where
  selects : select.projection ≠ []
  noNull : ∀ e ∈ select.selection, .value .null ∉ e.visited
  arguments : ∀ item ∈ select.projection, ∀ name distinct arg rest filter overClause clauses,
    itemExpr item = some (.function name (.list distinct (.unnamed arg :: rest)) filter overClause
      clauses) → IsColumn arg
  grouped : ∀ e ∈ select.groupBy.exprs, ∃ item ∈ select.projection,
    (∃ clauses, item = .wildcard clauses) ∨
      ∃ e', itemExpr item = some e' ∧ columnName schema e' = columnName schema e
  clear : ∀ e ∈ select.groupBy.exprs, ∀ name func c, columnName schema e = some name →
    name ≠ Execution.Aggregate.nameOf c func

/-- A column, or an aggregate of a column. -/
def IsOutput (l : LogicalExpr) : Prop :=
  (∃ table name, l = .column table name) ∨
    ∃ func table name, l = .aggregate func (.column table name)

theorem column_of_lower {e : Expr} {l : LogicalExpr} (column : IsColumn e)
    (lowered : lowerExpr schema e = .ok l) : ∃ table name, l = .column table name := by
  rcases column with ⟨name, rfl⟩ | ⟨parts, rfl⟩
  · obtain ⟨col, _, lowered⟩ := Outcome.bind_eq_ok.mp lowered
    cases lowered
    exact ⟨_, _, rfl⟩
  · match parts with
    | [table, name] =>
        cases lowered
        exact ⟨table, name, rfl⟩
    | [] => cases lowered
    | [_] => cases lowered
    | _ :: _ :: _ :: _ => cases lowered

theorem aggregate_of_lower {name : String} {args : FunctionArguments Expr} {filter : Option Expr}
    {overClause : Bool} {clauses : List (Clause Expr)} {l : LogicalExpr}
    (columns : ∀ distinct arg rest, args = .list distinct (.unnamed arg :: rest) → IsColumn arg)
    (lowered : lowerExpr schema (.function name args filter overClause clauses) = .ok l) :
    ∃ func table name, l = .aggregate func (.column table name) := by
  rw [lowerExpr] at lowered
  obtain ⟨func, _, lowered⟩ := Outcome.bind_eq_ok.mp lowered
  obtain ⟨arg, lowersArg, lowered⟩ := Outcome.bind_eq_ok.mp lowered
  cases lowered
  cases args with
  | none => cases lowersArg
  | subquery => cases lowersArg
  | list distinct args =>
      rw [lowerArguments] at lowersArg
      cases args with
      | nil => cases lowersArg
      | cons first rest =>
          rw [lowerFirst] at lowersArg
          cases first with
          | wildcard => cases lowersArg
          | named name e => cases lowersArg
          | unnamed e =>
              rw [lowerArg] at lowersArg
              obtain ⟨table, name, rfl⟩ := column_of_lower (columns _ _ _ rfl) lowersArg
              exact ⟨func, table, name, rfl⟩

/-- **An item becomes columns and aggregates of columns.** -/
theorem outputs_of_item {item : SelectItem} {made : List LogicalExpr}
    (valid : validateSelectItem item = .ok ())
    (arguments : ∀ name distinct arg rest filter overClause clauses,
      itemExpr item = some (.function name (.list distinct (.unnamed arg :: rest)) filter overClause
        clauses) → IsColumn arg)
    (lowered : lowerSelectItem schema item = .ok made) :
    (∀ l ∈ made, IsOutput l) ∧ (schema.columns ≠ [] → made ≠ []) := by
  have one : ∀ e l, itemExpr item = some e → validateProjectionExpr e = .ok () →
      lowerExpr schema e = .ok l →
        (∀ l' ∈ [l], IsOutput l') ∧ (schema.columns ≠ [] → [l] ≠ []) := by
    intro e l here ok lowersExpr
    refine ⟨fun l' member => ?_, fun _ => List.cons_ne_nil _ _⟩
    cases List.mem_singleton.mp member
    rcases column_or_call ok with column | ⟨name, args, filter, overClause, clauses, rfl⟩
    · exact .inl (column_of_lower column lowersExpr)
    · refine .inr (aggregate_of_lower (fun distinct arg rest same => ?_) lowersExpr)
      exact arguments name distinct arg rest filter overClause clauses (by rw [here, same])
  cases item with
  | wildcard clauses =>
      cases lowered
      refine ⟨fun l member => ?_, fun some => by simpa using some⟩
      obtain ⟨c, _, rfl⟩ := List.mem_map.mp member
      exact .inl ⟨_, _, rfl⟩
  | unnamedExpr e =>
      obtain ⟨l, lowersExpr, same⟩ := Outcome.bind_eq_ok.mp lowered
      cases same
      exact one e l rfl valid lowersExpr
  | exprWithAlias e aliasName =>
      obtain ⟨l, lowersExpr, same⟩ := Outcome.bind_eq_ok.mp lowered
      cases same
      exact one e l rfl valid lowersExpr
  | other => cases lowered

section Lists

variable {q : Query} {select : Select} {table : String} {clauses : List (Clause Expr)}
  {keys : List Expr} {modifiers : List String} {limitClause : Option LimitClause}
  {plan input : LogicalPlan} {groupBy aggregates projections : List LogicalExpr}

/-- What is lowered item by item. -/
theorem exists_lists (projected : lowerProjection select.projection schema = .ok projections) :
    ∃ lists, List.Forall₂ (fun item made => lowerSelectItem schema item = .ok made)
      select.projection lists ∧ projections = lists.flatten := by
  rw [lowerProjection] at projected
  cases mapped : select.projection.mapM (lowerSelectItem schema) with
  | err e =>
      rw [mapped] at projected
      cases projected
  | panic =>
      rw [mapped] at projected
      cases projected
  | ok lists =>
      rw [mapped] at projected
      cases projected
      exact ⟨lists, Outcome.mapM_eq_ok mapped, rfl⟩

/-- The name of a column is kept. -/
theorem column_of_columnName {e : Expr} {name : String} {l : LogicalExpr}
    (named : columnName schema e = some name) (lowered : lowerExpr schema e = .ok l) :
    ∃ table, l = .column table name := by
  cases e with
  | identifier other =>
      cases named
      obtain ⟨col, found, lowered⟩ := Outcome.bind_eq_ok.mp lowered
      cases lowered
      exact ⟨schema.name, by rw [(TableSchema.find_some (Outcome.ofOption_eq_ok.mp found)).2]⟩
  | compoundIdentifier parts =>
      match parts, named, lowered with
      | [table, other], named, lowered =>
          cases lowered
          rw [columnName] at named
          split_ifs at named
          cases named
          exact ⟨table, rfl⟩
  | _ => cases named

/-- A column that the analyzer has visited is in the schema. -/
theorem known_of_visited {e : Expr} {name : String} (column : IsColumn e)
    (visited : preVisitExpr schema e = .ok ()) (named : columnName schema e = some name) :
    ∃ c ∈ schema.columns, c.name = name := by
  rcases column with ⟨other, rfl⟩ | ⟨parts, rfl⟩
  · cases named
    obtain ⟨c, found, _⟩ := Outcome.bind_eq_ok.mp visited
    exact ⟨c, TableSchema.find_some (Outcome.ofOption_eq_ok.mp found)⟩
  · match parts, visited, named with
    | [table, other], visited, named =>
        obtain ⟨_, resolved, _⟩ := Outcome.bind_eq_ok.mp visited
        rw [resolveColumnExpr] at resolved
        split_ifs at resolved
        rw [columnName] at named
        split_ifs at named
        cases named
        cases found : schema.find name with
        | none =>
            rw [resolveColumn, found] at resolved
            cases resolved
        | some c => exact ⟨c, TableSchema.find_some found⟩

/-- **The clauses of an ordinary query**: the projection is of columns and aggregates of columns,
among them the group columns, and of the latter none has the name of an aggregate. -/
structure OrdinaryClauses (groups : List String) (aggregates projections : List LogicalExpr) :
    Prop where
  outputs : ∀ l ∈ projections, IsOutput l
  selects : projections ≠ []
  calls : ∀ l ∈ aggregates, l ∈ projections ∧
    ∃ func table name, l = .aggregate func (.column table name)
  grouped : ∀ name ∈ groups, ∃ table, .column table name ∈ projections
  clear : ∀ name ∈ groups, ∀ func c, name ≠ Execution.Aggregate.nameOf c func

theorem Ordinary.lowered (ordinary : Ordinary schema select) (columns : schema.columns ≠ [])
    (valid : ValidSelect q select table clauses keys modifiers)
    (visited : ∀ e ∈ keys, preVisitExpr schema e = .ok ())
    (lowered : LoweredSelect schema select limitClause plan input groupBy aggregates projections) :
    ∃ groups : List String, groupBy = groups.map (.column schema.name) ∧
      OrdinaryClauses groups aggregates projections := by
  obtain ⟨lists, items, rfl⟩ := exists_lists lowered.projected
  have each : ∀ {item made}, item ∈ select.projection → lowerSelectItem schema item = .ok made →
      (∀ l ∈ made, IsOutput l) ∧ (schema.columns ≠ [] → made ≠ []) := fun member here =>
    outputs_of_item (valid.items _ member) (ordinary.arguments _ member) here
  have listed : ∀ {item l}, item ∈ select.projection →
      (∀ made, lowerSelectItem schema item = .ok made → l ∈ made) → l ∈ lists.flatten := by
    intro item l member inside
    obtain ⟨made, there, here⟩ := exists_of_mem_left items member
    exact List.mem_flatten.mpr ⟨made, there, inside made here⟩
  have groupedKeys : List.Forall₂ (fun e l => lowerExpr schema e = .ok l) keys groupBy := by
    have grouped := lowered.grouped
    rw [valid.grouped] at grouped
    exact Outcome.mapM_eq_ok grouped
  obtain ⟨names, found, groups⟩ := exists_columns groupedKeys valid.columns visited
  have inKeys : ∀ name ∈ names, ∃ e ∈ keys, columnName schema e = some name := fun name member =>
    exists_of_mem_right (forall₂_of_mapM found) member
  have exprs : select.groupBy.exprs = keys := by
    rw [valid.grouped]
    rfl
  refine ⟨names, groups, fun l member => ?_, fun empty => ?_, fun l member => ?_, ?_, ?_⟩
  · obtain ⟨made, there, inside⟩ := List.mem_flatten.mp member
    obtain ⟨item, source, here⟩ := exists_of_mem_right items there
    exact (each source here).1 l inside
  · obtain ⟨item, member⟩ := List.exists_mem_of_ne_nil _ ordinary.selects
    obtain ⟨made, there, here⟩ := exists_of_mem_left items member
    obtain ⟨l, inside⟩ := List.exists_mem_of_ne_nil _ ((each member here).2 columns)
    exact List.ne_nil_of_mem (List.mem_flatten.mpr ⟨made, there, inside⟩) empty
  · obtain ⟨call, isCall, lowersCall⟩ := exists_of_mem_right (Outcome.mapM_eq_ok lowered.collected)
      member
    obtain ⟨item, source, isItem⟩ := List.mem_filterMap.mp isCall
    obtain ⟨kind, name, args, filter, overClause, clauses, rfl⟩ := aggregateItem_eq_some isItem
    have expr : itemExpr item = some (.function name args filter overClause clauses) := by
      rcases kind with rfl | ⟨_, rfl⟩
      · rfl
      · rfl
    constructor
    · refine listed source fun made here => ?_
      have single : lowerSelectItem schema item = .ok [l] := by
        rcases kind with rfl | ⟨_, rfl⟩
        · rw [lowerSelectItem, lowersCall]
          rfl
        · rw [lowerSelectItem, lowersCall]
          rfl
      cases here.symm.trans single
      exact List.mem_singleton_self l
    · refine aggregate_of_lower (fun distinct arg rest same => ?_) lowersCall
      exact ordinary.arguments item source name distinct arg rest filter overClause clauses
        (by rw [expr, same])
  · intro name member
    obtain ⟨e, key, named⟩ := inKeys name member
    obtain ⟨item, source, kind⟩ := ordinary.grouped e (exprs ▸ key)
    rcases kind with ⟨clauses, rfl⟩ | ⟨e', expr, same⟩
    · obtain ⟨c, known, rfl⟩ := known_of_visited (valid.columns e key) (visited e key) named
      refine ⟨schema.name, listed source fun made here => ?_⟩
      cases here
      exact List.mem_map_of_mem known
    · obtain ⟨made, there, here⟩ := exists_of_mem_left items source
      have lowersExpr : ∃ l, lowerExpr schema e' = .ok l ∧ made = [l] := by
        cases item with
        | unnamedExpr e =>
            cases expr
            obtain ⟨l, lowersExpr, same⟩ := Outcome.bind_eq_ok.mp here
            cases same
            exact ⟨l, lowersExpr, rfl⟩
        | exprWithAlias e aliasName =>
            cases expr
            obtain ⟨l, lowersExpr, same⟩ := Outcome.bind_eq_ok.mp here
            cases same
            exact ⟨l, lowersExpr, rfl⟩
        | wildcard clauses => cases expr
        | other => cases expr
      obtain ⟨l, lowersExpr, rfl⟩ := lowersExpr
      obtain ⟨table, rfl⟩ := column_of_columnName (same.trans named) lowersExpr
      exact ⟨table, List.mem_flatten.mpr ⟨_, there, List.mem_singleton_self _⟩⟩
  · intro name member func c
    obtain ⟨e, key, named⟩ := inKeys name member
    exact ordinary.clear e (exprs ▸ key) name func c named

end Lists

end TinyOlap.Logical
