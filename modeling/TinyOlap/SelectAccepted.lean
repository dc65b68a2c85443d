import TinyOlap.SelectPlan

/-!
# Queries that the front end accepts

A SELECT of columns whose WHERE clause is a supported predicate passes the validator, which
looks at its shape, and the analyzer, which visits every expression in it and resolves every
column.
-/

set_option autoImplicit false

namespace TinyOlap

open Library Catalog Frontend Physical

variable {schema : TableSchema}

/-! ## The validator -/

theorem validate_columnRef (ref : ColumnRef schema) :
    validateProjectionExpr ref.toExpr = .ok () := by
  rw [ColumnRef.toExpr]
  split <;> rfl

theorem validate_columnItem (item : ColumnItem schema) :
    validateSelectItem item.toItem = .ok () := by
  cases item with
  | star => rfl
  | column ref aliasName =>
      cases aliasName with
      | none => exact validate_columnRef ref
      | some aliasName => exact validate_columnRef ref

/-- **A row query is valid** if its WHERE clause is. -/
theorem validate_rowQuery (items : List (ColumnItem schema)) (w : Option (WherePredicate schema))
    (limitClause : Option LimitClause) :
    validate (.query (rowQuery schema items w limitClause)) = .ok () := by
  have projection : (items.map ColumnItem.toItem).forM validateSelectItem = .ok () := by
    rw [Outcome.forM_eq_ok]
    intro item member
    obtain ⟨source, _, rfl⟩ := List.mem_map.mp member
    exact validate_columnItem source
  cases w with
  | none =>
      simp only [validate, validateQuery, rowQuery, validateSelect, projection, Outcome.ok_bind]
      rfl
  | some w =>
      simp only [validate, validateQuery, rowQuery, validateSelect, projection, Outcome.ok_bind,
        Option.map_some, w.validate_toExpr]
      rfl

/-! ## The analyzer -/

/-- A column has no expression in it but itself. -/
theorem visited_columnRef (ref : ColumnRef schema) : ref.toExpr.visited = [ref.toExpr] := by
  rw [ColumnRef.toExpr]
  split <;> rfl

theorem preVisitExpr_columnRef (ref : ColumnRef schema) :
    preVisitExpr schema ref.toExpr = .ok () := by
  have resolved := resolveColumnExpr_columnRef ref
  rw [ColumnRef.toExpr] at resolved ⊢
  split at resolved
  · rw [if_pos ‹_›, preVisitExpr, resolved]
    rfl
  · rw [if_neg ‹_›, preVisitExpr]
    obtain ⟨_, found, _⟩ := Outcome.bind_eq_ok.mp resolved
    rw [found]
    rfl

/-- An operation on operands that are neither columns nor compared with one. -/
theorem checkSides_of_none {column : Expr} (none : resolveColumnExpr schema column = .ok none)
    (literal : Expr) : checkSides schema column literal = .ok () := by
  rw [checkSides, none]
  rfl

theorem checkSides_operands {t : DataType} (column literal : Operand schema t) :
    checkSides schema column.toExpr literal.toExpr = .ok () := by
  cases column with
  | literal l => exact checkSides_of_none rfl _
  | column ref typed =>
      rw [checkSides, Operand.toExpr, resolveColumnExpr_columnRef, Outcome.ok_bind]
      cases literal with
      | column other _ =>
          have noLiteral : literalExpr other.toExpr = none := by
            rw [ColumnRef.toExpr]
            split <;> rfl
          simp only [Operand.toExpr, noLiteral]
      | literal l =>
          simp only [Operand.toExpr, literalExpr, typed]
          exact l.compatible

theorem preVisitExpr_operand {t : DataType} (operand : Operand schema t) :
    ∀ e ∈ operand.toExpr.visited, preVisitExpr schema e = .ok () := by
  intro e member
  cases operand with
  | literal l =>
      cases List.mem_singleton.mp member
      rfl
  | column ref typed =>
      rw [Operand.toExpr, visited_columnRef] at member
      cases List.mem_singleton.mp member
      exact preVisitExpr_columnRef ref

/-- A predicate is no column. -/
theorem resolveColumnExpr_predicate (w : WherePredicate schema) :
    resolveColumnExpr schema w.toExpr = .ok none := by
  cases w <;> rfl

/-- **Every expression in a supported predicate is accepted.** -/
theorem preVisitExpr_predicate (w : WherePredicate schema) :
    ∀ e ∈ w.toExpr.visited, preVisitExpr schema e = .ok () := by
  induction w with
  | comparison c =>
      intro e member
      rcases List.mem_cons.mp member with rfl | inside
      · show (checkSides schema c.left.toExpr c.right.toExpr >>= fun _ =>
          checkSides schema c.right.toExpr c.left.toExpr) = .ok ()
        rw [checkSides_operands, Outcome.ok_bind, checkSides_operands]
      · rcases List.mem_append.mp inside with left | right
        · exact preVisitExpr_operand c.left e left
        · exact preVisitExpr_operand c.right e right
  | integers left op right =>
      intro e member
      rcases List.mem_cons.mp member with rfl | inside
      · rfl
      · rcases List.mem_pair.mp inside with rfl | rfl <;> rfl
  | truth b =>
      intro e member
      cases List.mem_singleton.mp member
      rfl
  | logical left op right ihLeft ihRight =>
      intro e member
      rcases List.mem_cons.mp member with rfl | inside
      · show (checkSides schema left.toExpr right.toExpr >>= fun _ =>
          checkSides schema right.toExpr left.toExpr) = .ok ()
        rw [checkSides_of_none (resolveColumnExpr_predicate left), Outcome.ok_bind,
          checkSides_of_none (resolveColumnExpr_predicate right)]
      · rcases List.mem_append.mp inside with inLeft | inRight
        · exact ihLeft e inLeft
        · exact ihRight e inRight

theorem visitExprs_eq_ok {exprs : List Expr}
    (each : ∀ e ∈ exprs, ∀ inner ∈ e.visited, preVisitExpr schema inner = .ok ()) :
    visitExprs schema exprs = .ok () := by
  rw [visitExprs, Outcome.forM_eq_ok]
  intro inner member
  obtain ⟨e, here, inside⟩ := List.mem_flatMap.mp member
  exact each e here inner inside

/-- **A row query without LIMIT passes the analyzer.** -/
theorem analyze_rowQuery (items : List (ColumnItem schema)) (w : Option (WherePredicate schema)) :
    analyze (.query (rowQuery schema items w none)) schema = .ok () := by
  have projection : visitExprs schema
      ((items.map ColumnItem.toItem).flatMap SelectItem.exprs) = .ok () := by
    refine visitExprs_eq_ok fun e member inner inside => ?_
    obtain ⟨item, here, exprs⟩ := List.mem_flatMap.mp member
    obtain ⟨source, _, rfl⟩ := List.mem_map.mp here
    cases source with
    | star => cases exprs
    | column ref aliasName =>
        have same : e = ref.toExpr := by
          cases aliasName <;> exact List.mem_singleton.mp exprs
        rw [same, visited_columnRef] at inside
        rw [List.mem_singleton.mp inside]
        exact preVisitExpr_columnRef ref
  have selection : visitExprs schema (w.map WherePredicate.toExpr).toList = .ok () := by
    refine visitExprs_eq_ok fun e member inner inside => ?_
    cases w with
    | none => cases member
    | some w =>
        cases List.mem_singleton.mp member
        exact preVisitExpr_predicate w inner inside
  have tables : [TableFactor.table schema.name].forM (preVisitTableFactor schema) = .ok () := by
    rw [Outcome.forM_eq_ok]
    intro factor member
    rw [List.mem_singleton.mp member, preVisitTableFactor, if_neg (by simp)]
  simp only [analyze, rowQuery, visitSetExpr, projection, Outcome.ok_bind, GroupByExpr.exprs,
    Option.toList_none, List.flatMap_cons, List.flatMap_nil, List.append_nil, tables, selection]
  rfl

end TinyOlap
