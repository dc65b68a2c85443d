import Mathlib.Data.String.Defs

/-!
# SQL statements

The syntax trees that the SQL parser hands to the front end, as far as any stage looks
at them. An expression of a form that no stage knows keeps the expressions inside it, since
the analyzer visits these too. A text `debug` stands for the debug rendering of a node.
-/

set_option autoImplicit false

namespace TinyOlap.Frontend

/-! ## Expressions -/

/-- Literals. A number is kept as its text. -/
inductive SqlValue where
  | number (text : String)
  | singleQuotedString (text : String)
  | boolean (b : Bool)
  | null
  | other (debug : String)
deriving DecidableEq, Repr

inductive BinaryOperator where
  | eq | notEq | lt | ltEq | gt | gtEq | and | or
  | other (debug : String)
deriving DecidableEq, Repr

/-- A clause that no stage knows, and the expressions in it. -/
structure Clause (E : Type) where
  name : String
  exprs : List E

/-- An argument of a function call. -/
inductive FunctionArg (E : Type) where
  | unnamed (e : E)
  | wildcard
  | named (name : String) (e : E)

inductive FunctionArguments (E : Type) where
  | none
  | subquery
  /-- The flag tells whether `DISTINCT` stands before the arguments. -/
  | list (distinct : Bool) (args : List (FunctionArg E))

inductive Expr where
  | identifier (name : String)
  | compoundIdentifier (parts : List String)
  | value (v : SqlValue)
  | binaryOp (left : Expr) (op : BinaryOperator) (right : Expr)
  /-- An operator in front, by the debug rendering of its name. -/
  | unaryOp (op : String) (operand : Expr)
  /-- A call, its `FILTER` clause, and whether it has an `OVER` clause. What stands in the window,
  between the parentheses beside the arguments, or in a clause of another kind, comes last. -/
  | function (name : String) (args : FunctionArguments Expr) (filter : Option Expr)
      (overClause : Bool) (clauses : List (Clause Expr))
  | subquery
  | other (debug : String) (inner : List Expr)

/-! ## Debug texts -/

/-- A character in a quoted text. -/
def escapeDebug (c : Char) : String :=
  match c.toNat with
  | 0 => "\\0"
  | 9 => "\\t"
  | 10 => "\\n"
  | 13 => "\\r"
  | 34 | 92 => "\\" ++ c.toString
  | _ => c.toString

/-- A text in quotes. -/
def quoted (text : String) : String :=
  let quote := Char.toString (Char.ofNat 34)
  quote ++ String.join (text.toList.map escapeDebug) ++ quote

def SqlValue.debugText : SqlValue → String
  | .number text => "Number(" ++ quoted text ++ ", false)"
  | .singleQuotedString text => "SingleQuotedString(" ++ quoted text ++ ")"
  | .boolean b => "Boolean(" ++ toString b ++ ")"
  | .null => "Null"
  | .other debug => debug

def BinaryOperator.debugText : BinaryOperator → String
  | .eq => "Eq"
  | .notEq => "NotEq"
  | .lt => "Lt"
  | .ltEq => "LtEq"
  | .gt => "Gt"
  | .gtEq => "GtEq"
  | .and => "And"
  | .or => "Or"
  | .other debug => debug

def identText (name : String) : String := "Ident \x7b value: " ++ quoted name ++ ", .. \x7d"

/-- The debug rendering of an expression. Two dots stand for the fields that the tree does not
keep, such as the place in the text. -/
def Expr.debugText : Expr → String
  | .identifier name => "Identifier(" ++ identText name ++ ")"
  | .compoundIdentifier parts =>
      "CompoundIdentifier([" ++ ", ".intercalate (parts.map identText) ++ "])"
  | .value v => "Value(ValueWithSpan \x7b value: " ++ v.debugText ++ ", .. \x7d)"
  | .binaryOp left op right =>
      "BinaryOp \x7b left: " ++ left.debugText ++ ", op: " ++ op.debugText ++ ", right: " ++
        right.debugText ++ " \x7d"
  | .unaryOp op operand =>
      "UnaryOp \x7b op: " ++ op ++ ", expr: " ++ operand.debugText ++ " \x7d"
  | .function name .. => "Function(Function \x7b name: " ++ name ++ ", .. \x7d)"
  | .subquery => "Subquery(..)"
  | .other debug _ => debug

/-! ## Visits -/

mutual

/-- An expression and all expressions in it, in the order of a visit. -/
def Expr.visited : Expr → List Expr
  | .identifier name => [.identifier name]
  | .compoundIdentifier parts => [.compoundIdentifier parts]
  | .value v => [.value v]
  | .binaryOp left op right => .binaryOp left op right :: (left.visited ++ right.visited)
  | .unaryOp op operand => .unaryOp op operand :: operand.visited
  | .function name args filter overClause clauses =>
      .function name args filter overClause clauses ::
        (visitedArguments args ++ visitedOption filter ++ visitedClauses clauses)
  | .subquery => [.subquery]
  | .other debug inner => .other debug inner :: visitedList inner

def visitedArguments : FunctionArguments Expr → List Expr
  | .list _ args => visitedArgs args
  | .none | .subquery => []

def visitedArgs : List (FunctionArg Expr) → List Expr
  | [] => []
  | arg :: rest => visitedArg arg ++ visitedArgs rest

def visitedArg : FunctionArg Expr → List Expr
  | .unnamed e | .named _ e => e.visited
  | .wildcard => []

def visitedOption : Option Expr → List Expr
  | none => []
  | some e => e.visited

def visitedClauses : List (Clause Expr) → List Expr
  | [] => []
  | clause :: rest => visitedClause clause ++ visitedClauses rest

def visitedClause : Clause Expr → List Expr
  | ⟨_, exprs⟩ => visitedList exprs

def visitedList : List Expr → List Expr
  | [] => []
  | e :: rest => e.visited ++ visitedList rest

end

/-! ## Queries -/

inductive SelectItem where
  /-- The star may take columns out, or replace or rename them. -/
  | wildcard (clauses : List (Clause Expr) := [])
  | unnamedExpr (e : Expr)
  | exprWithAlias (e : Expr) (aliasName : String)
  | other

inductive GroupByExpr where
  | all
  /-- The modifiers are those of `WITH ROLLUP` and the like. -/
  | expressions (exprs : List Expr) (modifiers : List String)

/-- An item of the `FROM` clause. A table may have arguments, a version, a sample or hints. -/
inductive TableFactor where
  | table (name : String) (clauses : List (Clause Expr) := [])
  | other

/-- A table with the tables joined to it. -/
structure TableWithJoins where
  relation : TableFactor
  joins : List TableFactor

structure Select where
  distinct : Bool
  projection : List SelectItem
  «from» : List TableWithJoins
  selection : Option Expr
  groupBy : GroupByExpr
  having : Option Expr
  /-- `TOP`, `INTO`, `PREWHERE`, `SORT BY`, `WINDOW`, `QUALIFY` and the like. -/
  clauses : List (Clause Expr) := []

inductive SetExpr where
  | select (s : Select)
  | values (rows : List (List Expr))
  | other

inductive LimitClause where
  | limitOffset (limit offset : Option Expr)
  | offsetCommaLimit (offset limit : Expr)

structure Query where
  /-- There is a `WITH` clause. -/
  «with» : Bool
  body : SetExpr
  /-- The expressions of `ORDER BY`, in ascending order. -/
  orderBy : List Expr
  limitClause : Option LimitClause
  /-- There is a `FETCH` clause. -/
  fetch : Bool
  /-- `ORDER BY` of another kind, `LIMIT BY`, `FOR UPDATE`, `SETTINGS`, `FORMAT` and the like. -/
  clauses : List (Clause Expr) := []

structure Insert where
  table : String
  /-- The column list, empty if there is none. -/
  columns : List String
  source : Option Query

inductive Statement where
  | insert (i : Insert)
  | query (q : Query)
  | other

end TinyOlap.Frontend
