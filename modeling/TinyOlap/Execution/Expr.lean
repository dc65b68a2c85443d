import TinyOlap.Execution.Executor
import TinyOlap.Physical.Meaning

/-!
# Predicates over batches

A predicate is evaluated column by column: a comparison gives a mask with one entry for
each row, and masks are combined. A comparison of two literals gives a mask with a single
entry. On a predicate whose comparisons are all between operands of one type, one of them
a column, the mask says of each row whether the predicate holds (`evaluatePredicate_eq`).
-/

set_option autoImplicit false

namespace TinyOlap.Execution

open Library Catalog Arrow Physical

/-! ## Operands -/

inductive ColumnarValue where
  | array (a : ArrayRef)
  | scalar (lit : LiteralValue)

/-- An operand of a kernel: an array, or a scalar as an array of length one. -/
structure Datum where
  array : ArrayRef
  isScalar : Bool

def toArrowDatum : ColumnarValue → ExecResult Datum
  | .array a => .ok ⟨a, false⟩
  | .scalar (.value t v) => .ok ⟨⟨.data t, [v]⟩, true⟩
  | .scalar .null => .panic

def evaluateOperand (expr : PhysicalExpr) (batch : RecordBatch) : ExecResult ColumnarValue :=
  match expr with
  | .column name => do
      let idx ← (batch.indexOf name).mapErr .arrow
      let res ← .orPanic batch.columns[idx]?
      .ok (.array res)
  | .literal lit => .ok (.scalar lit)
  | _ => .err (.invalidData "compare operand must be a column or literal")

/-! ## Kernels -/

/-- The values of an operand, a scalar as often as needed. -/
def broadcast {α : Type} (isScalar : Bool) (length : Nat) (values : List α) : List α :=
  if isScalar then values.flatMap (List.replicate length) else values

/-- The comparison kernels: operands of one type, compared value by value. -/
def cmpKernel (op : CmpOp) (l r : Datum) : Outcome ArrowError (List Bool) :=
  if l.array.length ≠ r.array.length ∧ l.isScalar = false ∧ r.isScalar = false then
    .err .invalidComparison
  else
    match l.array.type with
    | .sumCount => .err .invalidComparison
    | .data t =>
        match l.array.downcast (.data t), r.array.downcast (.data t) with
        | some left, some right =>
            let length := if l.isScalar then right.length else left.length
            .ok (List.zipWith (fun a b => op.test (cmpNative t a b))
              (broadcast l.isScalar length left) (broadcast r.isScalar length right))
        | _, _ => .err .invalidComparison

/-- `boolean::and` and `boolean::or`. -/
def boolKernel (op : LogicalOp) (l r : List Bool) : Outcome ArrowError (List Bool) :=
  if l.length ≠ r.length then .err .maskLength
  else
    match op with
    | .and => .ok (List.zipWith and l r)
    | .or => .ok (List.zipWith or l r)

def evaluatePredicate (expr : PhysicalExpr) (batch : RecordBatch) : ExecResult (List Bool) :=
  match expr with
  | .compare left op right => do
      let lCv ← evaluateOperand left batch
      let rCv ← evaluateOperand right batch
      let l ← toArrowDatum lCv
      let r ← toArrowDatum rCv
      (cmpKernel op l r).mapErr .arrow
  | .logical left op right => do
      let l ← evaluatePredicate left batch
      let r ← evaluatePredicate right batch
      (boolKernel op l r).mapErr .arrow
  | .column _ | .literal _ =>
      .err (.invalidData "predicate must be a comparison or logical expression")

/-! ## What the mask says -/

/-- The type of an operand: that of the first column with the name, or of the literal. -/
def operandType (fields : List Field) : PhysicalExpr → Option DataType
  | .column name =>
      match fields.find? fun f => f.name = name with
      | some ⟨_, .data t⟩ => some t
      | _ => none
  | .literal (.value t _) => some t
  | _ => none

def isColumn : PhysicalExpr → Bool
  | .column _ => true
  | _ => false

/-- All comparisons are between operands of one type, one of them a column. -/
def Evaluable (fields : List Field) : PhysicalExpr → Prop
  | .compare left _ right =>
      (isColumn left ∨ isColumn right) ∧
        ∃ t, operandType fields left = some t ∧ operandType fields right = some t
  | .logical left _ right => Evaluable fields left ∧ Evaluable fields right
  | _ => False

/-- The comparison of two operands of a row. -/
def testOperands (op : CmpOp) : Option Value → Option Value → Bool
  | some a, some b => (cmpValue a b).any op.test
  | _, _ => false

/-- An operand as a kernel gets it: one value for each row, the operand's value there. -/
theorem exists_datum {batch : RecordBatch} {expr : PhysicalExpr} {t : DataType}
    (type : operandType batch.fields expr = some t) :
    ∃ cv datum values, evaluateOperand expr batch = .ok cv ∧ toArrowDatum cv = .ok datum ∧
      datum.array = ⟨.data t, values⟩ ∧ datum.isScalar = !isColumn expr ∧
      (datum.isScalar = false → values.length = batch.numRows) ∧
      batch.namedRows.map (fun row => operand row expr) =
        (broadcast datum.isScalar batch.numRows values).map fun v => some ⟨.data t, v⟩ := by
  cases expr with
  | column name =>
      simp only [operandType] at type
      split at type
      · rename_i name' t' found
        cases type
        obtain ⟨idx, position, field⟩ := RecordBatch.findIdx?_of_find? found
        obtain ⟨⟨_, values⟩, here, rfl⟩ := RecordBatch.getElem?_columns field
        refine ⟨.array ⟨.data t, values⟩, ⟨⟨.data t, values⟩, false⟩, values, ?_, rfl, rfl, rfl,
          fun _ => batch.lengths _ (List.mem_of_getElem? here), ?_⟩
        · simp only [evaluateOperand, RecordBatch.indexOf, position, Outcome.ofOption,
            Outcome.mapErr_ok, Outcome.ok_bind, here, Outcome.orPanic_some]
        · simp only [operand, RecordBatch.namedRows_lookup position here, ArrayRef.cells,
            List.map_map, broadcast]
          rfl
      · cases type
  | literal lit =>
      cases lit with
      | null => cases type
      | value t' v =>
          cases type
          refine ⟨_, _, [v], rfl, rfl, rfl, rfl, fun array => Bool.noConfusion array, ?_⟩
          simp only [operand, broadcast, if_true, List.flatMap_singleton, List.map_replicate]
          rw [List.map_const', RecordBatch.namedRows_length]
  | compare left op right => cases type
  | logical left op right => cases type

/-- The kernel on operands of one type, one of them an array. -/
theorem cmpKernel_eq {op : CmpOp} {t : DataType} {left right : List t.Native}
    {scalarLeft scalarRight : Bool} {n : Nat} (array : scalarLeft = false ∨ scalarRight = false)
    (lengthLeft : scalarLeft = false → left.length = n)
    (lengthRight : scalarRight = false → right.length = n) :
    cmpKernel op ⟨⟨.data t, left⟩, scalarLeft⟩ ⟨⟨.data t, right⟩, scalarRight⟩ =
      .ok (List.zipWith (fun a b => op.test (cmpNative t a b)) (broadcast scalarLeft n left)
        (broadcast scalarRight n right)) := by
  have same : ¬ (left.length ≠ right.length ∧ scalarLeft = false ∧ scalarRight = false) := by
    rintro ⟨differ, no, none⟩
    exact differ ((lengthLeft no).trans (lengthRight none).symm)
  have length : (if scalarLeft then right.length else left.length) = n := by
    cases scalarLeft with
    | false => simpa using lengthLeft
    | true => simpa using lengthRight (by simpa using array)
  simp only [cmpKernel, ArrayRef.length, if_neg same, ArrayRef.downcast_mk, length]

/-- **The mask of a predicate says of each row whether the predicate holds.** -/
theorem evaluatePredicate_eq {batch : RecordBatch} {expr : PhysicalExpr}
    (evaluable : Evaluable batch.fields expr) :
    evaluatePredicate expr batch = .ok (batch.namedRows.map fun row => holds row expr) := by
  induction expr with
  | column name => exact evaluable.elim
  | literal lit => exact evaluable.elim
  | logical left op right ihLeft ihRight =>
      rw [evaluatePredicate, ihLeft evaluable.1, Outcome.ok_bind, ihRight evaluable.2,
        Outcome.ok_bind]
      cases op <;> simp [boolKernel, holds, List.zipWith_map, List.zipWith_self]
  | compare left op right _ _ =>
      obtain ⟨columns, t, typeLeft, typeRight⟩ := evaluable
      obtain ⟨cvLeft, ⟨_, scalarLeft⟩, valuesLeft, evalLeft, toLeft, rfl, isScalarLeft, lengthLeft,
        rowsLeft⟩ := exists_datum typeLeft
      obtain ⟨cvRight, ⟨_, scalarRight⟩, valuesRight, evalRight, toRight, rfl, isScalarRight,
        lengthRight, rowsRight⟩ := exists_datum typeRight
      simp only at isScalarLeft isScalarRight lengthLeft lengthRight rowsLeft rowsRight
      have array : scalarLeft = false ∨ scalarRight = false := by
        rw [isScalarLeft, isScalarRight]
        simpa using columns
      rw [evaluatePredicate, evalLeft, Outcome.ok_bind, evalRight, Outcome.ok_bind, toLeft,
        Outcome.ok_bind, toRight, Outcome.ok_bind, cmpKernel_eq array lengthLeft lengthRight,
        Outcome.mapErr_ok]
      -- both sides compare the operands' values row by row
      have both : (batch.namedRows.map fun row => holds row (.compare left op right)) =
          List.zipWith (testOperands op)
          (batch.namedRows.map fun row => operand row left)
          (batch.namedRows.map fun row => operand row right) := by
        rw [List.zipWith_map, List.zipWith_self]
        rfl
      rw [both, rowsLeft, rowsRight, List.zipWith_map]
      simp only [testOperands, cmpValue_same, Option.any_some]

end TinyOlap.Execution
