import TinyOlap.Frontend.Ast

/-!
# The clauses of a query

A query has a SELECT list and a table, and may have clauses of many kinds. Here these are taken
out of the syntax tree, kind by kind. A query has a clause of a kind if it is another one
without it.
-/

set_option autoImplicit false

namespace TinyOlap.Frontend

inductive ClauseKind where
  /-- `WHERE`. -/
  | selection
  | groupBy
  | limit
  | having
  | orderBy
  | offset
  /-- `WITH ROLLUP` and the like, behind `GROUP BY`. -/
  | modifiers
  /-- `DISTINCT`, `FILTER` and `OVER` in a call of the SELECT list. -/
  | callDistinct
  | callFilter
  | callOver
  /-- A clause that no stage knows, wherever it stands. -/
  | named (name : String)
deriving DecidableEq

section Drop

variable (out : ClauseKind → Bool)

def dropClauses (clauses : List (Clause Expr)) : List (Clause Expr) :=
  clauses.filter fun clause => !out (.named clause.name)

mutual

/-- An expression, and the calls in it, without the clauses of some kinds. -/
def Expr.drop : Expr → Expr
  | .binaryOp left op right => .binaryOp left.drop op right.drop
  | .function name args filter overClause clauses =>
      .function name (dropArguments args) (if out .callFilter then none else filter)
        (overClause && !out .callOver) (dropClauses out clauses)
  | e => e

def dropArguments : FunctionArguments Expr → FunctionArguments Expr
  | .list distinct args => .list (distinct && !out .callDistinct) (dropArgs args)
  | args => args

def dropArgs : List (FunctionArg Expr) → List (FunctionArg Expr)
  | [] => []
  | arg :: rest => dropArg arg :: dropArgs rest

def dropArg : FunctionArg Expr → FunctionArg Expr
  | .unnamed e => .unnamed e.drop
  | arg => arg

end

def SelectItem.drop : SelectItem → SelectItem
  | .wildcard clauses => .wildcard (dropClauses out clauses)
  | .unnamedExpr e => .unnamedExpr (e.drop out)
  | .exprWithAlias e aliasName => .exprWithAlias (e.drop out) aliasName
  | .other => .other

def TableFactor.drop : TableFactor → TableFactor
  | .table name clauses => .table name (dropClauses out clauses)
  | .other => .other

def GroupByExpr.drop : GroupByExpr → GroupByExpr
  | .expressions exprs modifiers =>
      .expressions (if out .groupBy then [] else exprs) (if out .modifiers then [] else modifiers)
  | .all => .all

def Select.drop (select : Select) : Select :=
  { distinct := select.distinct
    projection := select.projection.map (SelectItem.drop out)
    «from» := select.from.map fun item => ⟨item.relation.drop out, item.joins⟩
    selection := if out .selection then none else select.selection
    groupBy := select.groupBy.drop out
    having := if out .having then none else select.having
    clauses := dropClauses out select.clauses }

def SetExpr.drop : SetExpr → SetExpr
  | .select s => .select (s.drop out)
  | body => body

/-- The offset of a limit. The limit that stands behind its offset is never accepted. -/
def LimitClause.drop : LimitClause → LimitClause
  | .limitOffset limit offset => .limitOffset limit (if out .offset then none else offset)
  | clause => clause

/-- **A query without its clauses of some kinds.** An offset goes with its limit. -/
def Query.drop (query : Query) : Query :=
  { «with» := query.with
    body := query.body.drop out
    orderBy := if out .orderBy then [] else query.orderBy
    limitClause := if out .limit then none else query.limitClause.map (LimitClause.drop out)
    fetch := query.fetch
    clauses := dropClauses out query.clauses }

end Drop

/-- The query without its clauses of one kind. -/
def Query.without (query : Query) (kind : ClauseKind) : Query := query.drop (· == kind)

/-- The query has a clause of the kind. -/
def Query.Has (query : Query) (kind : ClauseKind) : Prop := query.without kind ≠ query

end TinyOlap.Frontend
