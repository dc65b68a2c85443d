import TinyOlap.Frontend.Ast
import TinyOlap.Library.Outcome

/-!
# SQL shape validation

Rejects the structures that are not supported. It only looks at the syntax tree; names
and types are checked by the analyzer. Inserts are not validated.
-/

set_option autoImplicit false

namespace TinyOlap.Frontend

open Library

/-- The result of a stage that reports its errors as texts. -/
abbrev TextResult (α : Type) : Type := Outcome String α

/-- The capital of a letter. Two letters outside ASCII have one inside. -/
def upperChar : Char → Char
  | 'ı' => 'I'
  | 'ſ' => 'S'
  | c => c.toUpper

/-- `to_uppercase`, for the comparison with ASCII names. -/
def toUppercase (name : String) : String := String.ofList (name.toList.map upperChar)

/-- `validate_where_expr`. -/
def validateWhereExpr : Expr → TextResult Unit
  | .binaryOp left op right => do
      match op with
      | .eq | .notEq | .lt | .gt | .ltEq | .gtEq | .and | .or => .ok ()
      | .other debug => .err ("Unsupported operator in WHERE: " ++ debug)
      validateWhereExpr left
      validateWhereExpr right
  | .identifier _ | .compoundIdentifier _ => .ok ()
  | .value _ => .ok ()
  | .function .. => .err "functions in WHERE are not supported"
  | .subquery => .err "subqueries in WHERE are not supported"
  | .unaryOp op operand =>
      .err ("Unsupported expressed in WHERE: " ++ (Expr.unaryOp op operand).debugText)
  | .other debug _ => .err ("Unsupported expressed in WHERE: " ++ debug)

def validateProjectionExpr : Expr → TextResult Unit
  | .identifier _ | .compoundIdentifier _ => .ok ()
  | .function name args _ _ _ =>
      let name := toUppercase name
      if name ∉ ["COUNT", "SUM", "AVG", "MIN", "MAX"] then
        .err ("Unsupported aggregate function: " ++ name)
      else
        match args with
        | .list _ args =>
            if args.length ≠ 1 then .err "aggregate functions take exactly one argument" else .ok ()
        | _ => .err "Unsupported function argument for the function"
  | _ => .err "Unsupported expression in SELECT list"

def validateSelectItem : SelectItem → TextResult Unit
  | .wildcard _ => .ok ()
  | .unnamedExpr expr => validateProjectionExpr expr
  | .exprWithAlias expr _ => validateProjectionExpr expr
  | .other => .err "Unsupported SELECT item"

def validateGroupBy : GroupByExpr → TextResult Unit
  | .expressions exprs _ =>
      exprs.forM fun
        | .identifier _ | .compoundIdentifier _ => .ok ()
        | _ => .err "only column names are supported in GROUP BY"
  | .all => .err "ROLLUP / CUBE in GROUP BY is not supported"

def validateSelect (select : Select) : TextResult Unit := do
  if select.distinct then .err "DISTINCT is not supported" else .ok ()
  match select.from with
  | [from'] => do
      if from'.joins.isEmpty then .ok () else .err "JOINs are not supported"
      match from'.relation with
      | .table .. => .ok ()
      | .other => .err "Subqueries in FROM are not supported"
  | _ => .err "Exactly one table in FROM is required"
  select.projection.forM validateSelectItem
  match select.selection with
  | some expr => validateWhereExpr expr
  | none => .ok ()
  validateGroupBy select.groupBy

def validateQuery (query : Query) : TextResult Unit :=
  if query.with then .err "WITH / CTEs are not supported"
  else if query.fetch then .err "FETCH is not supported"
  else
    match query.body with
    | .select select => validateSelect select
    | _ => .err "UNION/ INTERSECT/ EXCEPT/ FOR clauses are not supported"

/-- `validate`. -/
def validate : Statement → TextResult Unit
  | .insert _ => .ok ()
  | .query query => validateQuery query
  | .other => .err "Unsupported Statement type"

end TinyOlap.Frontend
