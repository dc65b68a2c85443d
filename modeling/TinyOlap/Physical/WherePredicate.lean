import TinyOlap.Logical.Lower
import TinyOlap.Logical.Optimizer
import TinyOlap.Physical.Meaning
import TinyOlap.Physical.NarrowLiteral

/-!
# Supported predicates

The WHERE clauses that the front end is meant to support: trees of AND and OR over
comparisons with a column, comparisons of two integer literals, and the constants TRUE and
FALSE. A comparison with a column is between operands of one type, so a literal in it is
one that the planners accept for the column; the analyzer then accepts it too
(`TypedLiteral.compatible`).

The tree is followed through the stages: its SQL expression, the logical expression it is
lowered to, and that expression with its casts. Its own meaning is ordinary Boolean logic
over the rows of a table.
-/

set_option autoImplicit false

namespace TinyOlap.Physical

open Library Catalog Arrow Frontend
open Logical (LogicalExpr coerceExpr)

/-! ## Operators -/

/-- The operator as SQL writes it. -/
def CmpOp.sql : CmpOp → BinaryOperator
  | eq => .eq
  | notEq => .notEq
  | lt => .lt
  | ltEq => .ltEq
  | gt => .gt
  | gtEq => .gtEq

def CmpOp.logical : CmpOp → Logical.BinaryOp
  | eq => .eq
  | notEq => .notEq
  | lt => .lt
  | ltEq => .ltEq
  | gt => .gt
  | gtEq => .gtEq

def LogicalOp.sql : LogicalOp → BinaryOperator
  | and => .and
  | or => .or

def LogicalOp.logical : LogicalOp → Logical.BinaryOp
  | and => .and
  | or => .or

def LogicalOp.combine : LogicalOp → Bool → Bool → Bool
  | and => Bool.and
  | or => Bool.or

/-- The operand that leaves the other one as it is. The opposite decides the result. -/
def LogicalOp.neutral : LogicalOp → Bool
  | and => true
  | or => false

theorem CmpOp.lower_sql (op : CmpOp) : Logical.lowerBinaryOp op.sql = .ok op.logical := by
  cases op <;> rfl

theorem LogicalOp.lower_sql (op : LogicalOp) : Logical.lowerBinaryOp op.sql = .ok op.logical := by
  cases op <;> rfl

theorem CmpOp.isComparison (op : CmpOp) : Logical.isComparisonOp op.logical = true := by
  cases op <;> rfl

theorem LogicalOp.notComparison (op : LogicalOp) : Logical.isComparisonOp op.logical = false := by
  cases op <;> rfl

theorem CmpOp.lowerOp_logical (op : CmpOp) (left right : PhysicalExpr) :
    lowerOp left op.logical right = .compare left op right := by
  cases op <;> rfl

theorem LogicalOp.lowerOp_logical (op : LogicalOp) (left right : PhysicalExpr) :
    lowerOp left op.logical right = .logical left op right := by
  cases op <;> rfl

@[simp] theorem LogicalOp.combine_neutral (op : LogicalOp) (b : Bool) :
    op.combine op.neutral b = b := by
  cases op <;> rfl

@[simp] theorem LogicalOp.combine_decided (op : LogicalOp) (b : Bool) :
    op.combine (!op.neutral) b = !op.neutral := by
  cases op <;> rfl

/-! ## Leaves -/

/-- A column of the schema, with or without the table in front. -/
structure ColumnRef (schema : TableSchema) where
  column : ColumnSchema
  found : schema.find column.name = some column
  qualified : Bool

/-- The column as SQL writes it. -/
def ColumnRef.toExpr {schema : TableSchema} (ref : ColumnRef schema) : Expr :=
  if ref.qualified then .compoundIdentifier [schema.name, ref.column.name]
  else .identifier ref.column.name

/-- The analyzer finds the column. -/
theorem resolveColumnExpr_columnRef {schema : TableSchema} (ref : ColumnRef schema) :
    resolveColumnExpr schema ref.toExpr = .ok (some ref.column) := by
  cases qualified : ref.qualified with
  | true =>
      rw [ColumnRef.toExpr, if_pos qualified, resolveColumnExpr, if_neg (by simp), resolveColumn,
        ref.found]
      rfl
  | false =>
      rw [ColumnRef.toExpr, if_neg (by simp [qualified]), resolveColumnExpr, resolveColumn,
        ref.found]
      rfl

/-- A literal that the lowering and the narrowing accept for a type, and the value it
becomes. -/
structure TypedLiteral (t : DataType) where
  written : SqlValue
  lit : Logical.LiteralValue
  lowered : Logical.lowerLiteral written = .ok lit
  value : t.Native
  narrowed : narrowLiteral lit t = .ok (.value t value)

/-- What the planners accept, the analyzer accepts. -/
theorem TypedLiteral.compatible {t : DataType} (l : TypedLiteral t) :
    checkTypeCompat t l.written = .ok () := by
  obtain ⟨written, lit, lowered, value, narrowed⟩ := l
  cases written with
  | number text =>
      rcases lowerLiteral_number lowered with ⟨i, rfl, stands⟩ | ⟨f, rfl, _⟩
      · rcases t with (t | _ | _ | _) | _
        · obtain ⟨n, range, _⟩ := Outcome.bind_eq_ok.mp narrowed
          have same := MachineInt.ofInt?_eq_some.mp (Outcome.orPanic_eq_ok.mp range)
          have lower : minVal true 127 ≤ i.val := le_trans (by decide) i.lower
          have upper : i.val ≤ maxVal true 127 := le_trans i.upper (by decide)
          have read : Decimal.parseInt true 127 text = some ⟨i.val, lower, upper⟩ :=
            Decimal.parseInt_signed.mpr stands
          have inside : ¬ (i.val < minVal t.signed t.top ∨ maxVal t.signed t.top < i.val) := by
            rw [← same, not_or, not_lt, not_lt]
            exact ⟨n.lower, n.upper⟩
          simp only [checkTypeCompat, read, if_neg inside]
        · rfl
        · rfl
        · cases narrowed
        · cases narrowed
      · rcases t with (_ | _ | _ | _) | _ <;> first | rfl | cases narrowed
  | singleQuotedString text =>
      cases lowered
      rcases t with (_ | _ | _ | _) | _ <;> first | rfl | cases narrowed
  | boolean b => rfl
  | null => rfl
  | other debug => cases lowered

/-- A literal of a type without rounding becomes the value it writes. -/
theorem TypedLiteral.writes {t : DataType} (l : TypedLiteral t) : Writes t l.written l.value := by
  obtain ⟨written, lit, lowered, value, narrowed⟩ := l
  cases written with
  | number text =>
      rcases t with (t | _ | _ | _) | _
      · rcases lowerLiteral_number lowered with ⟨i, rfl, stands⟩ | ⟨f, rfl, _⟩
        · obtain ⟨n, range, made⟩ := Outcome.bind_eq_ok.mp narrowed
          cases made
          have same := MachineInt.ofInt?_eq_some.mp (Outcome.orPanic_eq_ok.mp range)
          exact stands.trans (congrArg some same.symm)
        · cases narrowed
      · trivial
      · trivial
      · rcases lowerLiteral_number lowered with ⟨i, rfl, _⟩ | ⟨f, rfl, _⟩ <;> cases narrowed
      · rcases lowerLiteral_number lowered with ⟨i, rfl, _⟩ | ⟨f, rfl, _⟩ <;> cases narrowed
  | singleQuotedString text =>
      cases lowered
      rcases t with (_ | _ | _ | _) | _ <;> cases narrowed
      rfl
  | boolean b =>
      cases lowered
      rcases t with (_ | _ | _ | _) | _ <;> cases narrowed
      rfl
  | null =>
      cases lowered
      rcases t with (_ | _ | _ | _) | _ <;> cases narrowed
  | other debug => cases lowered

/-- An operand of a type. -/
inductive Operand (schema : TableSchema) (t : DataType) where
  | column (ref : ColumnRef schema) (typed : ref.column.dataType = t)
  | literal (l : TypedLiteral t)

/-- A comparison of operands of one type, one of which is a column. -/
structure Comparison (schema : TableSchema) where
  type : DataType
  left : Operand schema type
  op : CmpOp
  right : Operand schema type
  column : (∃ ref typed, left = .column ref typed) ∨ ∃ ref typed, right = .column ref typed

/-- An integer literal of any size. -/
structure IntLiteral where
  text : String
  value : Int
  stands : Decimal.integer text = some value
  lit : Logical.LiteralValue
  lowered : Logical.lowerLiteral (.number text) = .ok lit

/-- **A supported predicate.** -/
inductive WherePredicate (schema : TableSchema) where
  | comparison (c : Comparison schema)
  | integers (left : IntLiteral) (op : CmpOp) (right : IntLiteral)
  | truth (b : Bool)
  | logical (left : WherePredicate schema) (op : LogicalOp) (right : WherePredicate schema)

variable {schema : TableSchema} {t : DataType}

/-! ## Meaning -/

namespace Operand

/-- The value of an operand in a row. -/
def value (row : NamedRow) : Operand schema t → Option Value
  | column ref _ => row.lookup ref.column.name
  | literal l => some ⟨.data t, l.value⟩

end Operand

def Comparison.holds (row : NamedRow) (c : Comparison schema) : Bool :=
  match c.left.value row, c.right.value row with
  | some a, some b => (cmpValue a b).any c.op.test
  | _, _ => false

/-- **Whether a supported predicate is true of a row.** -/
def WherePredicate.holds (row : NamedRow) : WherePredicate schema → Bool
  | comparison c => c.holds row
  | integers left op right => op.test (cmpInt left.value right.value)
  | truth b => b
  | logical left op right => op.combine (left.holds row) (right.holds row)

/-! ## The stages -/

theorem ColumnRef.lower_toExpr (ref : ColumnRef schema) :
    Logical.lowerExpr schema ref.toExpr = .ok (.column schema.name ref.column.name) := by
  cases qualified : ref.qualified with
  | true =>
      rw [toExpr, if_pos qualified]
      rfl
  | false =>
      rw [toExpr, if_neg (by simp [qualified]), Logical.lowerExpr, ref.found]
      rfl

namespace Operand

def toExpr : Operand schema t → Expr
  | column ref _ => ref.toExpr
  | literal l => .value l.written

def toLogical : Operand schema t → LogicalExpr
  | column ref _ => .column schema.name ref.column.name
  | literal l => .literal l.lit

/-- Next to a column, a literal is cast to the column's type. -/
def coerced : Operand schema t → LogicalExpr
  | column ref _ => .column schema.name ref.column.name
  | literal l => .cast (.literal l.lit) t

def columnRefs : Operand schema t → List (ColumnRef schema)
  | column ref _ => [ref]
  | literal _ => []

def toPhysical : Operand schema t → PhysicalExpr
  | column ref _ => .column ref.column.name
  | literal l => .literal (.value t l.value)

theorem validate_toExpr (e : Operand schema t) : validateWhereExpr e.toExpr = .ok () := by
  cases e with
  | column ref typed =>
      rw [toExpr, ColumnRef.toExpr]
      split <;> rfl
  | literal l => rfl

theorem lower_toExpr (e : Operand schema t) :
    Logical.lowerExpr schema e.toExpr = .ok e.toLogical := by
  cases e with
  | column ref typed => exact ref.lower_toExpr
  | literal l =>
      rw [toExpr, Logical.lowerExpr, l.lowered]
      rfl

theorem lower_coerced (e : Operand schema t) : lowerExpr e.coerced = .ok e.toPhysical := by
  cases e with
  | column ref typed => rfl
  | literal l =>
      rw [coerced, lowerExpr, l.narrowed]
      rfl

theorem operand_toPhysical (row : NamedRow) (e : Operand schema t) :
    operand row e.toPhysical = e.value row := by
  cases e <;> rfl

end Operand

theorem targetType_column (ref : ColumnRef schema) :
    Logical.targetType schema ref.column.name = .ok ref.column.dataType := by
  rw [Logical.targetType, ref.found]
  rfl

namespace Comparison

def toExpr (c : Comparison schema) : Expr := .binaryOp c.left.toExpr c.op.sql c.right.toExpr

def toLogical (c : Comparison schema) : LogicalExpr :=
  .binaryOp c.left.toLogical c.op.logical c.right.toLogical

def coerced (c : Comparison schema) : LogicalExpr :=
  .binaryOp c.left.coerced c.op.logical c.right.coerced

def toPhysical (c : Comparison schema) : PhysicalExpr :=
  .compare c.left.toPhysical c.op c.right.toPhysical

theorem lower_toExpr (c : Comparison schema) :
    Logical.lowerExpr schema c.toExpr = .ok c.toLogical := by
  rw [toExpr, Logical.lowerExpr, c.left.lower_toExpr, Outcome.ok_bind, c.right.lower_toExpr,
    Outcome.ok_bind, c.op.lower_sql]
  rfl

/-- A literal next to a column gets its cast. -/
theorem coerce_toLogical (c : Comparison schema) :
    coerceExpr schema c.toLogical = .ok c.coerced := by
  obtain ⟨type, left, op, right, column⟩ := c
  have comparison := op.isComparison
  cases left with
  | column ref typed =>
      cases right with
      | column ref' typed' =>
          simp only [toLogical, Operand.toLogical, coerceExpr, Outcome.ok_bind, comparison, if_true]
          rfl
      | literal l =>
          simp only [toLogical, Operand.toLogical, coerceExpr, Outcome.ok_bind, comparison, if_true,
            Logical.coerceComparison, targetType_column, typed]
          rfl
  | literal l =>
      cases right with
      | column ref typed =>
          simp only [toLogical, Operand.toLogical, coerceExpr, Outcome.ok_bind, comparison, if_true,
            Logical.coerceComparison, targetType_column, typed]
          rfl
      | literal l' =>
          rcases column with ⟨_, _, same⟩ | ⟨_, _, same⟩
          · cases same
          · cases same

/-- Folding leaves the comparison alone, since no operand of it is a bare literal. -/
theorem fold_coerced (c : Comparison schema) : Logical.foldExpr c.coerced = c.coerced := by
  obtain ⟨type, left, op, right, column⟩ := c
  cases left <;> cases right <;> rfl

theorem lower_coerced (c : Comparison schema) : lowerExpr c.coerced = .ok c.toPhysical := by
  rw [coerced, lowerExpr, c.left.lower_coerced, Outcome.ok_bind, c.right.lower_coerced,
    Outcome.ok_bind, c.op.lowerOp_logical]
  rfl

theorem holds_toPhysical (row : NamedRow) (c : Comparison schema) :
    Physical.holds row c.toPhysical = c.holds row := by
  rw [toPhysical, Physical.holds, Operand.operand_toPhysical, Operand.operand_toPhysical]
  rfl

end Comparison

namespace WherePredicate

/-- The predicate as SQL writes it. -/
def toExpr : WherePredicate schema → Expr
  | comparison c => c.toExpr
  | integers left op right =>
      .binaryOp (.value (.number left.text)) op.sql (.value (.number right.text))
  | truth b => .value (.boolean b)
  | logical left op right => .binaryOp left.toExpr op.sql right.toExpr

def toLogical : WherePredicate schema → LogicalExpr
  | comparison c => c.toLogical
  | integers left op right => .binaryOp (.literal left.lit) op.logical (.literal right.lit)
  | truth b => .literal (.bool b)
  | logical left op right => .binaryOp left.toLogical op.logical right.toLogical

def coerced : WherePredicate schema → LogicalExpr
  | comparison c => c.coerced
  | integers left op right => .binaryOp (.literal left.lit) op.logical (.literal right.lit)
  | truth b => .literal (.bool b)
  | logical left op right => .binaryOp left.coerced op.logical right.coerced

/-- The validator accepts an operation of two accepted operands. -/
theorem validate_binaryOp {left right : Expr} {op : BinaryOperator}
    (supported : ∀ debug, op ≠ .other debug) (acceptsLeft : validateWhereExpr left = .ok ())
    (acceptsRight : validateWhereExpr right = .ok ()) :
    validateWhereExpr (.binaryOp left op right) = .ok () := by
  cases op with
  | other debug => exact (supported debug rfl).elim
  | _ => simp only [validateWhereExpr, acceptsLeft, acceptsRight, Outcome.ok_bind]

theorem validate_toExpr (w : WherePredicate schema) : validateWhereExpr w.toExpr = .ok () := by
  induction w with
  | comparison c =>
      exact validate_binaryOp (by cases c.op <;> simp [CmpOp.sql]) c.left.validate_toExpr
        c.right.validate_toExpr
  | integers left op right => exact validate_binaryOp (by cases op <;> simp [CmpOp.sql]) rfl rfl
  | truth b => rfl
  | logical left op right ihLeft ihRight =>
      exact validate_binaryOp (by cases op <;> simp [LogicalOp.sql]) ihLeft ihRight

theorem lower_toExpr (w : WherePredicate schema) :
    Logical.lowerExpr schema w.toExpr = .ok w.toLogical := by
  induction w with
  | comparison c => exact c.lower_toExpr
  | integers left op right =>
      rw [toExpr, Logical.lowerExpr, Logical.lowerExpr, left.lowered, Outcome.ok_bind,
        Outcome.ok_bind, Logical.lowerExpr, right.lowered, Outcome.ok_bind, Outcome.ok_bind,
        op.lower_sql]
      rfl
  | truth b => rfl
  | logical left op right ihLeft ihRight =>
      rw [toExpr, Logical.lowerExpr, ihLeft, Outcome.ok_bind, ihRight, Outcome.ok_bind,
        op.lower_sql]
      rfl

theorem coerce_toLogical (w : WherePredicate schema) :
    coerceExpr schema w.toLogical = .ok w.coerced := by
  induction w with
  | comparison c => exact c.coerce_toLogical
  | integers left op right =>
      simp only [toLogical, coerceExpr, Outcome.ok_bind, op.isComparison, if_true]
      rfl
  | truth b => rfl
  | logical left op right ihLeft ihRight =>
      rw [toLogical, coerceExpr, ihLeft, Outcome.ok_bind, ihRight, Outcome.ok_bind,
        op.notComparison, if_neg Bool.false_ne_true]
      rfl

/-! ## Predicates without constants -/

/-- Every leaf is a comparison with a column. -/
def Plain : WherePredicate schema → Prop
  | comparison _ => True
  | integers .. | truth _ => False
  | logical left _ right => left.Plain ∧ right.Plain

/-- The predicate that is executed. -/
def toPhysical : WherePredicate schema → PhysicalExpr
  | comparison c => c.toPhysical
  | integers left op right =>
      .compare (.literal (lowerLiteral left.lit)) op (.literal (lowerLiteral right.lit))
  | truth b => .literal (.bool b)
  | logical left op right => .logical left.toPhysical op right.toPhysical

/-- The columns that a predicate names. -/
def columnRefs : WherePredicate schema → List (ColumnRef schema)
  | comparison c => c.left.columnRefs ++ c.right.columnRefs
  | integers .. | truth _ => []
  | logical left _ right => left.columnRefs ++ right.columnRefs

theorem lower_coerced {w : WherePredicate schema} (plain : w.Plain) :
    lowerExpr w.coerced = .ok w.toPhysical := by
  induction w with
  | comparison c => exact c.lower_coerced
  | integers left op right => exact plain.elim
  | truth b => exact plain.elim
  | logical left op right ihLeft ihRight =>
      rw [coerced, lowerExpr, ihLeft plain.1, Outcome.ok_bind, ihRight plain.2, Outcome.ok_bind,
        op.lowerOp_logical]
      rfl

theorem holds_toPhysical {w : WherePredicate schema} (plain : w.Plain) (row : NamedRow) :
    Physical.holds row w.toPhysical = w.holds row := by
  induction w with
  | comparison c => exact c.holds_toPhysical row
  | integers left op right => exact plain.elim
  | truth b => exact plain.elim
  | logical left op right ihLeft ihRight =>
      rw [holds, ← ihLeft plain.1, ← ihRight plain.2]
      cases op <;> rfl

theorem collectExprColumns_coerced (w : WherePredicate schema) :
    collectExprColumns w.coerced = w.columnRefs.map fun ref => ref.column.name := by
  have operand : ∀ {t : DataType} (e : Operand schema t),
      collectExprColumns e.coerced = e.columnRefs.map fun ref => ref.column.name := by
    intro t e
    cases e <;> rfl
  induction w with
  | comparison c =>
      rw [coerced, Comparison.coerced, collectExprColumns, operand, operand, columnRefs,
        List.map_append]
  | integers left op right => rfl
  | truth b => rfl
  | logical left op right ihLeft ihRight =>
      rw [coerced, collectExprColumns, ihLeft, ihRight, columnRefs, List.map_append]

end WherePredicate

end TinyOlap.Physical
