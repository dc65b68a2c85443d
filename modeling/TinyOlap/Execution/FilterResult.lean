import TinyOlap.Execution.RowOperators

/-!
# Which rows a filter keeps

A mask can be short. A comparison of two literals gives one entry however many rows the
batch has, and masks of different lengths cannot be combined; so whenever a predicate can
be evaluated at all, either some comparison in it has a column and the mask has an entry
for each row, or none has and the mask has a single entry
(`mask_of_evaluatePredicate`). A short mask is no error: the rows beyond its end are
dropped.
-/

set_option autoImplicit false

namespace TinyOlap.Execution

open Library Library.WorkPool Catalog Arrow Physical

/-! ## Masks -/

/-- Some comparison of the predicate has a column. -/
def hasColumn : PhysicalExpr → Bool
  | .compare left _ right => isColumn left || isColumn right
  | .logical left _ right => hasColumn left || hasColumn right
  | .column _ | .literal _ => false

/-- An operand that becomes an array of a column type has that type. -/
theorem operandType_of_evaluate {batch : RecordBatch} {expr : PhysicalExpr} {cv : ColumnarValue}
    {datum : Datum} {t : DataType} (evaluated : evaluateOperand expr batch = .ok cv)
    (become : toArrowDatum cv = .ok datum) (type : datum.array.type = .data t) :
    operandType batch.fields expr = some t := by
  cases expr with
  | column name =>
      obtain ⟨idx, position, evaluated⟩ := Outcome.bind_eq_ok.mp evaluated
      obtain ⟨a, here, evaluated⟩ := Outcome.bind_eq_ok.mp evaluated
      cases evaluated
      cases become
      have position := Outcome.ofOption_eq_ok.mp (Outcome.mapErr_eq_ok.mp position)
      have here := Outcome.orPanic_eq_ok.mp here
      obtain ⟨inside, named, before⟩ := List.findIdx?_eq_some_iff_getElem.mp position
      have found : batch.fields.find? (fun f => f.name = name) = some batch.fields[idx] :=
        List.find?_eq_some_iff_getElem.mpr ⟨named, idx, inside, rfl, fun j less => by
          simpa using before j less⟩
      obtain ⟨a', here', sameType⟩ :=
        RecordBatch.getElem?_columns (List.getElem?_eq_getElem inside)
      have same : a = a' := Option.some.inj (here.symm.trans here')
      have fieldType : batch.fields[idx].dataType = .data t :=
        sameType.symm.trans (same ▸ type)
      rw [operandType, found]
      generalize batch.fields[idx] = f at fieldType
      obtain ⟨name', dataType⟩ := f
      cases fieldType
      rfl
  | literal lit =>
      cases evaluated
      cases lit with
      | null => cases become
      | value t' v =>
          cases become
          cases type
          rfl
  | compare left op right => cases evaluated
  | logical left op right => cases evaluated

/-- A comparison that can be evaluated is between operands of one type. -/
theorem operandTypes_of_evaluatePredicate {batch : RecordBatch} {left right : PhysicalExpr}
    {op : CmpOp} {mask : List Bool}
    (evaluated : evaluatePredicate (.compare left op right) batch = .ok mask) :
    ∃ t, operandType batch.fields left = some t ∧ operandType batch.fields right = some t := by
  obtain ⟨lCv, evaluatedLeft, evaluated⟩ := Outcome.bind_eq_ok.mp evaluated
  obtain ⟨rCv, evaluatedRight, evaluated⟩ := Outcome.bind_eq_ok.mp evaluated
  obtain ⟨l, becomeLeft, evaluated⟩ := Outcome.bind_eq_ok.mp evaluated
  obtain ⟨r, becomeRight, evaluated⟩ := Outcome.bind_eq_ok.mp evaluated
  have compared := Outcome.mapErr_eq_ok.mp evaluated
  unfold cmpKernel at compared
  split at compared
  · cases compared
  · split at compared
    · cases compared
    · rename_i t typeLeft
      split at compared
      · rename_i valuesLeft valuesRight downLeft downRight
        have typeRight : r.array.type = .data t := by
          rw [ArrayRef.downcast_eq_some.mp downRight]
        exact ⟨t, operandType_of_evaluate evaluatedLeft becomeLeft typeLeft,
          operandType_of_evaluate evaluatedRight becomeRight typeRight⟩
      · cases compared

/-- An operand that has a type and is no column is a literal. -/
theorem exists_literal {fields : List Field} {expr : PhysicalExpr} {t : DataType}
    (type : operandType fields expr = some t) (noColumn : isColumn expr = false) :
    ∃ v, expr = .literal (.value t v) := by
  cases expr with
  | column name => cases noColumn
  | literal lit =>
      cases lit with
      | null => cases type
      | value t' v =>
          cases type
          exact ⟨v, rfl⟩
  | compare left op right => cases type
  | logical left op right => cases type

/-- Both sides of an AND or OR are masks of all rows. -/
theorem boolKernel_map {rows : List NamedRow} {left right : PhysicalExpr} {op : LogicalOp}
    {mask : List Bool}
    (combined : boolKernel op (rows.map fun row => holds row left)
      (rows.map fun row => holds row right) = .ok mask) :
    mask = rows.map fun row => holds row (.logical left op right) := by
  cases op <;> simpa [boolKernel, holds, List.zipWith_map, List.zipWith_self] using combined.symm

/-- On a batch of one row a mask of one entry is a mask of all rows. -/
theorem single_eq_map {rows : List NamedRow} {expr : PhysicalExpr}
    (constant : ∀ row, holds row expr = holds [] expr) (one : rows.length = 1) :
    [holds [] expr] = rows.map fun row => holds row expr := by
  obtain ⟨row, rfl⟩ := List.length_eq_one_iff.mp one
  rw [List.map_singleton, constant row]

/-- **The mask of a predicate that can be evaluated**: an entry for each row if some
comparison has a column, and a single entry if none has. -/
theorem mask_of_evaluatePredicate {batch : RecordBatch} {expr : PhysicalExpr} {mask : List Bool}
    (evaluated : evaluatePredicate expr batch = .ok mask) :
    (hasColumn expr = true ∧ mask = batch.namedRows.map fun row => holds row expr) ∨
    (hasColumn expr = false ∧ mask = [holds [] expr] ∧ ∀ row, holds row expr = holds [] expr) := by
  induction expr generalizing mask with
  | column name => cases evaluated
  | literal lit => cases evaluated
  | compare left op right _ _ =>
      obtain ⟨t, typeLeft, typeRight⟩ := operandTypes_of_evaluatePredicate evaluated
      by_cases column : hasColumn (.compare left op right) = true
      · have columns : isColumn left ∨ isColumn right := by simpa [hasColumn] using column
        have evaluable : Evaluable batch.fields (.compare left op right) :=
          ⟨columns, t, typeLeft, typeRight⟩
        rw [evaluatePredicate_eq evaluable] at evaluated
        cases evaluated
        exact .inl ⟨column, rfl⟩
      · have noColumns : isColumn left = false ∧ isColumn right = false := by
          simpa [hasColumn] using column
        obtain ⟨v, rfl⟩ := exists_literal typeLeft noColumns.1
        obtain ⟨w, rfl⟩ := exists_literal typeRight noColumns.2
        refine .inr ⟨rfl, ?_, fun row => rfl⟩
        simp only [evaluatePredicate, evaluateOperand, toArrowDatum, Outcome.ok_bind, cmpKernel,
          ArrayRef.length, ArrayRef.downcast_mk, broadcast] at evaluated
        cases evaluated
        simp [holds, operand, cmpValue_same]
  | logical left op right ihLeft ihRight =>
      obtain ⟨maskLeft, evaluatedLeft, evaluated⟩ := Outcome.bind_eq_ok.mp evaluated
      obtain ⟨maskRight, evaluatedRight, evaluated⟩ := Outcome.bind_eq_ok.mp evaluated
      have combined := Outcome.mapErr_eq_ok.mp evaluated
      have lengths : maskLeft.length = maskRight.length := by
        by_contra differ
        unfold boolKernel at combined
        rw [if_pos differ] at combined
        cases combined
      rcases ihLeft evaluatedLeft with ⟨columnLeft, rfl⟩ | ⟨noneLeft, rfl, constantLeft⟩
      · refine .inl ⟨by simp [hasColumn, columnLeft], ?_⟩
        rcases ihRight evaluatedRight with ⟨_, rfl⟩ | ⟨_, rfl, constantRight⟩
        · exact boolKernel_map combined
        · have one : batch.namedRows.length = 1 := by simpa using lengths
          rw [single_eq_map constantRight one] at combined
          exact boolKernel_map combined
      · rcases ihRight evaluatedRight with ⟨columnRight, rfl⟩ | ⟨noneRight, rfl, constantRight⟩
        · refine .inl ⟨by simp [hasColumn, columnRight], ?_⟩
          have one : batch.namedRows.length = 1 := by simpa using lengths.symm
          rw [single_eq_map constantLeft one] at combined
          exact boolKernel_map combined
        · refine .inr ⟨by simp [hasColumn, noneLeft, noneRight], ?_, ?_⟩
          · rw [@single_eq_map [[]] _ constantLeft rfl,
              @single_eq_map [[]] _ constantRight rfl] at combined
            exact boolKernel_map combined
          · intro row
            cases op <;> simp [holds, constantLeft row, constantRight row]

/-! ## Rows -/

/-- **When a filter keeps exactly the matching rows.** A filter reads batches on which its
predicate can be evaluated. Every mask has an entry for each row, and the batches it returns
hold exactly the rows of which the predicate holds, in order, if and only if some comparison
has a column or there is exactly one row in each batch. -/
theorem filterExec_keeps_iff {predicate : PhysicalExpr} {batches : List RecordBatch}
    (evaluates : ∀ b ∈ batches, ∃ mask, evaluatePredicate predicate b = .ok mask) :
    ((∀ b ∈ batches, ∀ mask, evaluatePredicate predicate b = .ok mask →
        mask.length = b.numRows) ∧
      ∃ emitted : List RecordBatch,
        (filterExec predicate).result () (batches.map .ok) = some (emitted.map .ok) ∧
        emitted.flatMap RecordBatch.namedRows =
          (batches.flatMap RecordBatch.namedRows).filter fun row => holds row predicate) ↔
    (hasColumn predicate = true ∨ ∀ b ∈ batches, b.numRows = 1) := by
  constructor
  · rintro ⟨complete, _⟩
    by_contra short
    rw [not_or] at short
    apply short.2
    intro b member
    obtain ⟨mask, evaluated⟩ := evaluates b member
    rw [← complete b member mask evaluated]
    rcases mask_of_evaluatePredicate evaluated with ⟨column, _⟩ | ⟨_, rfl, _⟩
    · exact (short.1 column).elim
    · rfl
  · intro enough
    have masked : ∀ b ∈ batches, Masked predicate b := by
      intro b member
      obtain ⟨mask, evaluated⟩ := evaluates b member
      rcases mask_of_evaluatePredicate evaluated with ⟨_, rfl⟩ | ⟨noColumn, rfl, constant⟩
      · exact evaluated
      · have one : b.namedRows.length = 1 := by
          rw [RecordBatch.namedRows_length]
          refine enough.resolve_left ?_ b member
          rw [noColumn]
          exact Bool.false_ne_true
        rw [Masked, evaluated, single_eq_map constant one]
    refine ⟨?_, _, filterExec_result masked, keptBatch_rows masked⟩
    intro b member mask evaluated
    cases (masked b member).symm.trans evaluated
    simp

/-- `'x' = 'x'`. -/
def sameTexts : PhysicalExpr :=
  .compare (.literal (.value .str "x")) .eq (.literal (.value .str "x"))

/-- A batch of two rows. -/
def twoFlags : RecordBatch where
  fields := [⟨"flag", .data .bool⟩]
  columns := [⟨.data .bool, [true, false]⟩]
  numRows := 2
  typed := rfl
  lengths := by decide

/-- A comparison of two equal texts holds of both rows, and only the first is kept. -/
theorem filterExec_keeps_first :
    evaluatePredicate sameTexts twoFlags = .ok [true] ∧
    (twoFlags.namedRows.filter fun row => holds row sameTexts) = twoFlags.namedRows ∧
    ∃ kept : RecordBatch, (filterExec sameTexts).result () [.ok twoFlags] = some [.ok kept] ∧
      kept.namedRows = twoFlags.namedRows.take 1 ∧ kept.namedRows ≠ twoFlags.namedRows :=
  ⟨by decide, by decide, _, rfl, by decide, by decide⟩

/-- On the column of a batch of two rows a filter keeps the matching row. -/
theorem filterExec_keeps_iff_two :
    ((∀ b ∈ [twoFlags], ∀ mask,
        evaluatePredicate (.compare (.column "flag") .eq (.literal (.bool true))) b = .ok mask →
        mask.length = b.numRows) ∧
      ∃ emitted : List RecordBatch,
        (filterExec (.compare (.column "flag") .eq (.literal (.bool true)))).result ()
          ([twoFlags].map .ok) = some (emitted.map .ok) ∧
        emitted.flatMap RecordBatch.namedRows =
          ([twoFlags].flatMap RecordBatch.namedRows).filter fun row =>
            holds row (.compare (.column "flag") .eq (.literal (.bool true)))) :=
  (filterExec_keeps_iff fun b member => by
    rw [List.mem_singleton.mp member]
    exact ⟨_, rfl⟩).mpr (.inl rfl)

end TinyOlap.Execution
