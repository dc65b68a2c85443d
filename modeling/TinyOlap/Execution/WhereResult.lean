import TinyOlap.Execution.FilterResult
import TinyOlap.Execution.ZoneMapSkip
import TinyOlap.Physical.Optimizer
import TinyOlap.Physical.WhereFolding

/-!
# Which supported predicates run

A WHERE clause is lowered, coerced, folded and lowered again, and what is left of it filters
batches. The evaluator takes comparisons and the combinations of their masks, but no bare
constant, and folding only drops constants on the left. So a constant on the right, or a
predicate that is false as a whole, is an error when the filter runs (`whereFilter_keeps_iff`).
-/

set_option autoImplicit false

namespace TinyOlap.Physical

open Library Catalog Arrow

variable {schema : TableSchema} {t : DataType}

/-! ## The columns of a predicate -/

/-- The columns that an operand names have their types among the fields. -/
def Operand.Fits (fields : List Field) : Operand schema t → Prop
  | column ref _ =>
      Execution.operandType fields (.column ref.column.name) = some ref.column.dataType
  | literal _ => True

/-- The columns that a predicate names have their types among the fields. -/
def WherePredicate.Fits (fields : List Field) : WherePredicate schema → Prop
  | comparison c => c.left.Fits fields ∧ c.right.Fits fields
  | integers _ _ _ | truth _ => True
  | logical left _ right => left.Fits fields ∧ right.Fits fields

/-- The comparisons of a predicate are between integers, Bools or texts. -/
def WherePredicate.Exact : WherePredicate schema → Prop
  | .comparison c => c.type ≠ .f32 ∧ c.type ≠ .f64
  | .integers .. | .truth _ => True
  | .logical left _ right => left.Exact ∧ right.Exact

theorem Operand.not_isFloatColumn (distinct : schema.Distinct) (e : Operand schema t)
    (noFloat : t ≠ .f32 ∧ t ≠ .f64) : ¬ Execution.IsFloatColumn schema e.toPhysical := by
  cases e with
  | literal l => exact not_false
  | column ref typed =>
      rintro ⟨c, member, named, float⟩
      have found := TableSchema.find_of_mem distinct member
      rw [named, ref.found] at found
      cases found
      rw [typed] at float
      exact float.elim noFloat.1 noFloat.2

theorem Operand.comparedColumns_subset (e : Operand schema t) :
    Execution.comparedColumns e.toPhysical ⊆ collectExprColumns e.coerced := by
  cases e with
  | literal l => exact List.nil_subset _
  | column ref typed => exact fun _ member => member

theorem Operand.operandType_toPhysical {fields : List Field} {e : Operand schema t}
    (fits : e.Fits fields) : Execution.operandType fields e.toPhysical = some t := by
  cases e with
  | column ref typed => exact fits.trans (congrArg some typed)
  | literal l => rfl

theorem Comparison.evaluable_toPhysical {fields : List Field} {c : Comparison schema}
    (fitsLeft : c.left.Fits fields) (fitsRight : c.right.Fits fields) :
    Execution.Evaluable fields c.toPhysical := by
  refine ⟨?_, c.type, Operand.operandType_toPhysical fitsLeft,
    Operand.operandType_toPhysical fitsRight⟩
  rcases c.column with ⟨ref, typed, same⟩ | ⟨ref, typed, same⟩
  · rw [same]
    exact .inl rfl
  · rw [same]
    exact .inr rfl

end TinyOlap.Physical

namespace TinyOlap.Execution

open Library Library.WorkPool Catalog Arrow Physical
open Physical.WherePredicate (ComparesColumn ComparesLarge)

variable {schema : TableSchema}

/-! ## The plan of a predicate -/

/-- The planners on a filter over a scan, which is where a WHERE clause stands. -/
def planWhere (schema : TableSchema) (cols : List String) (predicate : Frontend.Expr) :
    Frontend.TextResult PhysicalPlan := do
  let predicate ← Logical.lowerExpr schema predicate
  let plan ← Logical.optimize schema (.filter predicate (.scan schema.name))
  let plan ← lowerPlan cols plan
  .ok (Physical.optimize plan)

/-- What is left of the filter runs over batches. -/
def runWhere (plan : PhysicalPlan) (batches : List RecordBatch) : Option (List BatchResult) :=
  match plan with
  | .filter predicate _ => (filterExec predicate).result () (batches.map .ok)
  | _ => some (batches.map .ok)

/-- The rest of planning when folding has left a predicate. -/
theorem planWhere_eq (cols : List String) (w : WherePredicate schema) :
    planWhere schema cols w.toExpr = (do
      let plan ← (Logical.eliminateTrueFilter).apply
        (.filter (Logical.foldExpr w.coerced) (.scan schema.name))
      let plan ← lowerPlan cols plan
      .ok (Physical.optimize plan)) := by
  rw [planWhere, w.lower_toExpr, Outcome.ok_bind]
  have coerced : (Logical.typeCoercion schema).apply (.filter w.toLogical (.scan schema.name)) =
      .ok (.filter w.coerced (.scan schema.name)) := by
    simp only [Logical.typeCoercion, Logical.rewrite, Outcome.ok_bind, w.coerce_toLogical]
  have folded : Logical.constantFolding.apply (.filter w.coerced (.scan schema.name)) =
      .ok (.filter (Logical.foldExpr w.coerced) (.scan schema.name)) := rfl
  rw [Logical.optimize_eq, coerced, Outcome.ok_bind, folded, Outcome.ok_bind]

/-! ## What is left of a predicate -/

theorem boolKernel_of_lengths {l r : List Bool} (op : LogicalOp) (differ : l.length ≠ r.length) :
    boolKernel op l r = .err .maskLength := by
  simp only [boolKernel, ne_eq, differ, not_false_eq_true, if_true]

theorem evaluatePredicate_logical_err {left right : PhysicalExpr} {batch : RecordBatch}
    {mask : List Bool} {e : ExecutionError} (op : LogicalOp)
    (evaluated : evaluatePredicate left batch = .ok mask)
    (failed : evaluatePredicate right batch = .err e) :
    evaluatePredicate (.logical left op right) batch = .err e := by
  rw [evaluatePredicate, evaluated, Outcome.ok_bind, failed]
  rfl

/-- The predicate that folding leaves, by the leaves that remain in it: comparisons with a
column have a mask of all rows, comparisons of large integers a mask of one entry, and
everything else is an error, if only because the masks differ in length. -/
structure Computes (w : WherePredicate schema) (p : PhysicalExpr) : Prop where
  all : w.Remains ComparesColumn →
    (∀ fields, w.Fits fields → Evaluable fields p) ∧ ∀ row, holds row p = w.holds row
  single : w.Remains ComparesLarge →
    ∀ batch, evaluatePredicate p batch = .ok [w.holdsRounded []]
  fails : ¬ w.Remains ComparesColumn → ¬ w.Remains ComparesLarge →
    ∀ batch : RecordBatch, w.Fits batch.fields → batch.numRows ≠ 1 →
      ∃ e, evaluatePredicate p batch = .err e

namespace Computes

variable {w left right : WherePredicate schema} {p q : PhysicalExpr} {op : LogicalOp}

/-- On a batch with another number of rows than one, a mask is complete or has one entry. -/
theorem evaluates (computes : Computes w p) {batch : RecordBatch} (fits : w.Fits batch.fields)
    (rows : batch.numRows ≠ 1) :
    (w.Remains ComparesColumn ∧
      ∃ mask, evaluatePredicate p batch = .ok mask ∧ mask.length = batch.numRows) ∨
    (w.Remains ComparesLarge ∧ evaluatePredicate p batch = .ok [w.holdsRounded []]) ∨
    ∃ e, evaluatePredicate p batch = .err e := by
  by_cases column : w.Remains ComparesColumn
  · have evaluated := evaluatePredicate_eq ((computes.all column).1 batch.fields fits)
    exact .inl ⟨column, _, evaluated, by simp⟩
  · by_cases large : w.Remains ComparesLarge
    · exact .inr (.inl ⟨large, computes.single large batch⟩)
    · exact .inr (.inr (computes.fails column large batch fits rows))

/-- A neutral operand on the left is dropped. -/
theorem dropLeft (neutral : left.FixedTo op.neutral) (computes : Computes right q) :
    Computes (.logical left op right) q where
  all remains := by
    refine ⟨fun fields fits => (computes.all remains.2).1 fields fits.2, fun row => ?_⟩
    rw [(computes.all remains.2).2 row, WherePredicate.holds,
      (WherePredicate.holds_of_fixedTo neutral row).1, op.combine_neutral]
  single remains batch := by
    rw [computes.single remains.2 batch, WherePredicate.holdsRounded,
      (WherePredicate.holds_of_fixedTo neutral []).2, op.combine_neutral]
  fails column large batch fits rows :=
    computes.fails (fun rest => column ⟨.inl neutral, rest⟩)
      (fun rest => large ⟨.inl neutral, rest⟩)
      batch fits.2 rows

/-- A constant on the right is an error. -/
theorem constantRight (computes : Computes left p) {b : Bool} (fixed : right.FixedTo b)
    (lit : LiteralValue) : Computes (.logical left op right) (.logical p op (.literal lit)) where
  all remains := (WherePredicate.not_fixedTo_of_column remains.2 b fixed).elim
  single remains := (WherePredicate.not_fixedTo_of_large remains.2 b fixed).elim
  fails _ _ batch fits rows := by
    rcases computes.evaluates fits.1 rows with
      ⟨_, mask, evaluated, _⟩ | ⟨_, evaluated⟩ | ⟨e, failed⟩
    · exact ⟨_, evaluatePredicate_logical_err op evaluated rfl⟩
    · exact ⟨_, evaluatePredicate_logical_err op evaluated rfl⟩
    · rw [evaluatePredicate, failed]
      exact ⟨e, rfl⟩

/-- Two operands that are left are combined if their masks have the same length. -/
theorem both (computesLeft : Computes left p) (computesRight : Computes right q)
    (notFixed : ∀ b, ¬ left.FixedTo b) :
    Computes (.logical left op right) (.logical p op q) where
  all remains := by
    obtain ⟨evaluableLeft, holdsLeft⟩ := computesLeft.all (remains.1.resolve_left (notFixed _))
    obtain ⟨evaluableRight, holdsRight⟩ := computesRight.all remains.2
    refine ⟨fun fields fits => ⟨evaluableLeft fields fits.1, evaluableRight fields fits.2⟩, ?_⟩
    intro row
    rw [WherePredicate.holds, ← holdsLeft row, ← holdsRight row]
    cases op <;> rfl
  single remains batch := by
    rw [evaluatePredicate, computesLeft.single (remains.1.resolve_left (notFixed _)),
      Outcome.ok_bind, computesRight.single remains.2, Outcome.ok_bind]
    cases op <;> rfl
  fails column large batch fits rows := by
    rcases computesLeft.evaluates fits.1 rows with
      ⟨columnLeft, mask, evaluated, length⟩ | ⟨largeLeft, evaluated⟩ | ⟨e, failed⟩
    · rcases computesRight.evaluates fits.2 rows with
        ⟨columnRight, _⟩ | ⟨_, evaluatedRight⟩ | ⟨e, failed⟩
      · exact (column ⟨.inr columnLeft, columnRight⟩).elim
      · refine ⟨.arrow .maskLength, ?_⟩
        have differ : mask.length ≠ [right.holdsRounded []].length := by simpa [length] using rows
        rw [evaluatePredicate, evaluated, Outcome.ok_bind, evaluatedRight, Outcome.ok_bind,
          boolKernel_of_lengths op differ]
        rfl
      · exact ⟨e, evaluatePredicate_logical_err op evaluated failed⟩
    · rcases computesRight.evaluates fits.2 rows with
        ⟨_, mask, evaluatedRight, length⟩ | ⟨largeRight, _⟩ | ⟨e, failed⟩
      · refine ⟨.arrow .maskLength, ?_⟩
        have differ : [left.holdsRounded []].length ≠ mask.length := by
          simpa [length] using Ne.symm rows
        rw [evaluatePredicate, evaluated, Outcome.ok_bind, evaluatedRight, Outcome.ok_bind,
          boolKernel_of_lengths op differ]
        rfl
      · exact (large ⟨.inr largeLeft, largeRight⟩).elim
      · exact ⟨e, evaluatePredicate_logical_err op evaluated failed⟩
    · rw [evaluatePredicate, failed]
      exact ⟨e, rfl⟩

theorem comparison (c : Comparison schema) : Computes (.comparison c) c.toPhysical where
  all _ := ⟨fun _ fits => Comparison.evaluable_toPhysical fits.1 fits.2, fun row =>
    c.holds_toPhysical row⟩
  single remains := remains.elim
  fails column := (column trivial).elim

/-- The kernel compares two doubles, and refuses a double and an integer. -/
theorem integers {a b : IntLiteral} {op : CmpOp} (large : ¬ (a.Small ∧ b.Small)) :
    Computes (.integers a op b : WherePredicate schema)
      (.compare (.literal (lowerLiteral a.lit)) op (.literal (lowerLiteral b.lit))) where
  all remains := remains.elim
  single remains batch := by
    have beyond : ¬ a.Small ∧ ¬ b.Small := remains
    rw [a.lit_of_large beyond.1, b.lit_of_large beyond.2, WherePredicate.holdsRounded,
      if_pos beyond]
    rfl
  fails _ mixed batch _ _ := by
    refine ⟨.arrow .invalidComparison, ?_⟩
    by_cases small : a.Small
    · obtain ⟨i, lit, _⟩ := a.lit_of_small small
      rw [lit, b.lit_of_large fun small' => large ⟨small, small'⟩]
      rfl
    · have small' : b.Small := by
        by_contra large'
        exact mixed ⟨small, large'⟩
      obtain ⟨i, lit, _⟩ := b.lit_of_small small'
      rw [lit, a.lit_of_large small]
      rfl

end Computes

/-- What folding leaves names only columns of the expression that is lowered, and compares floats
only if the predicate does. -/
structure Names (w : WherePredicate schema) (e : Logical.LogicalExpr) (p : PhysicalExpr) :
    Prop where
  columns : comparedColumns p ⊆ collectExprColumns e
  noFloat : schema.Distinct → w.Exact → ¬ ComparesFloat schema p

theorem Names.comparison (c : Comparison schema) :
    Names (.comparison c) c.coerced c.toPhysical where
  columns := List.append_subset.mpr
    ⟨List.subset_append_of_subset_left _ c.left.comparedColumns_subset,
      List.subset_append_of_subset_right _ c.right.comparedColumns_subset⟩
  noFloat distinct exact' := not_or.mpr
    ⟨c.left.not_isFloatColumn distinct exact', c.right.not_isFloatColumn distinct exact'⟩

theorem Names.logical {left right : WherePredicate schema} {e f : Logical.LogicalExpr}
    {p q : PhysicalExpr} (namesLeft : Names left e p) (namesRight : Names right f q)
    (op : LogicalOp) :
    Names (.logical left op right) (.binaryOp e op.logical f) (.logical p op q) where
  columns := List.append_subset.mpr
    ⟨List.subset_append_of_subset_left _ namesLeft.columns,
      List.subset_append_of_subset_right _ namesRight.columns⟩
  noFloat distinct exact' := not_or.mpr
    ⟨namesLeft.noFloat distinct exact'.1, namesRight.noFloat distinct exact'.2⟩

/-- Constants name nothing. -/
theorem Names.of_literal (w : WherePredicate schema) (e : Logical.LogicalExpr)
    (lit : LiteralValue) : Names w e (.literal lit) where
  columns := List.nil_subset _
  noFloat _ _ := not_false

/-- **What folding leaves**: nothing, when the constants on the left fix the predicate, or
else an operation that is lowered to a predicate that computes as its leaves say. -/
theorem fixedTo_or_computes (w : WherePredicate schema) :
    (∃ b, w.FixedTo b) ∨
    ∃ left op right p, Logical.foldExpr w.coerced = .binaryOp left op right ∧
      lowerExpr (.binaryOp left op right) = .ok p ∧ Computes w p ∧
      Names w (.binaryOp left op right) p := by
  induction w with
  | comparison c =>
      exact .inr ⟨_, _, _, _, c.fold_coerced, c.lower_coerced, Computes.comparison c,
        Names.comparison c⟩
  | integers a op b =>
      by_cases small : a.Small ∧ b.Small
      · exact .inl ⟨_, small.1, small.2, rfl⟩
      · refine .inr ⟨_, _, _, _, WherePredicate.fold_integers.2 small, ?_, Computes.integers small,
          List.nil_subset _, fun _ _ => not_or.mpr ⟨not_false, not_false⟩⟩
        exact congrArg Outcome.ok (op.lowerOp_logical _ _)
  | truth b => exact .inl ⟨b, rfl⟩
  | logical left op right ihLeft ihRight =>
      obtain ⟨drop, _, keep⟩ := WherePredicate.fold_logical op left.coerced right.coerced
      rcases ihLeft with ⟨b, fixed⟩ | ⟨l, o, r, p, folded, lowered, computes, names⟩
      · by_cases neutral : b = op.neutral
        · subst neutral
          rcases ihRight with ⟨c, fixed'⟩ | ⟨l, o, r, q, folded, lowered, computes, names⟩
          · exact .inl ⟨c, .inr ⟨fixed, fixed'⟩⟩
          · refine .inr ⟨l, o, r, q, ?_, lowered, computes.dropLeft fixed, names.columns,
              fun distinct exact' => names.noFloat distinct exact'.2⟩
            exact (drop (WherePredicate.fold_of_fixedTo fixed)).trans folded
        · have decided : b = !op.neutral := by cases b <;> cases op <;> simp_all [LogicalOp.neutral]
          exact .inl ⟨_, .inl ⟨decided ▸ fixed, rfl⟩⟩
      · have notFixed : ∀ b, ¬ left.FixedTo b := by
          intro b fixed
          cases folded.symm.trans (WherePredicate.fold_of_fixedTo fixed)
        rcases ihRight with ⟨c, fixed⟩ | ⟨l', o', r', q, folded', lowered', computes', names'⟩
        · refine .inr ⟨_, _, _, _, keep l o r folded, ?_, computes.constantRight fixed (.bool c),
            names.logical (Names.of_literal right _ _) op⟩
          rw [WherePredicate.fold_of_fixedTo fixed, lowerExpr, lowered]
          exact congrArg Outcome.ok (op.lowerOp_logical _ _)
        · refine .inr ⟨_, _, _, _, keep l o r folded, ?_, computes.both computes' notFixed,
            folded' ▸ names.logical names' op⟩
          rw [folded', lowerExpr, lowered, Outcome.ok_bind, lowered']
          exact congrArg Outcome.ok (op.lowerOp_logical _ _)

/-! ## The filter -/

/-- What planning leaves of a predicate. -/
theorem planWhere_cases (cols : List String) (w : WherePredicate schema) :
    (w.FixedTo true ∧ planWhere schema cols w.toExpr = .ok (.fullScan schema.name cols)) ∨
    (w.FixedTo false ∧ planWhere schema cols w.toExpr =
      .ok (.filter (.literal (.bool false))
        (.zoneMapScan schema.name cols (.literal (.bool false))))) ∨
    ∃ p, Computes w p ∧ (∀ b, ¬ w.FixedTo b) ∧
      planWhere schema cols w.toExpr =
        .ok (.filter p (.zoneMapScan schema.name cols p)) := by
  rw [planWhere_eq]
  rcases fixedTo_or_computes w with
    ⟨b, fixed⟩ | ⟨left, op, right, p, folded, lowered, computes, _⟩
  · rw [WherePredicate.fold_of_fixedTo fixed]
    cases b with
    | true => exact .inl ⟨fixed, rfl⟩
    | false => exact .inr (.inl ⟨fixed, rfl⟩)
  · refine .inr (.inr ⟨p, computes, ?_, ?_⟩)
    · intro b fixed
      cases folded.symm.trans (WherePredicate.fold_of_fixedTo fixed)
    · obtain ⟨l, _, lowered'⟩ := Outcome.bind_eq_ok.mp lowered
      obtain ⟨r, _, lowered'⟩ := Outcome.bind_eq_ok.mp lowered'
      rw [folded]
      simp only [Logical.eliminateTrueFilter, Logical.rewrite, Outcome.ok_bind, lowerPlan, lowered]
      cases lowered'
      cases op <;> rfl

/-- Two rows of zeros for the columns of a schema. -/
def zeroValue : (t : DataType) → t.Native
  | .int t => MachineInt.wrap t.signed t.top 0
  | .f32 => Ieee.ofInt 8 23 0
  | .f64 => Ieee.ofInt 11 52 0
  | .bool => false
  | .str => ""

def twoZeros (schema : TableSchema) : RecordBatch where
  fields := schema.columns.map Field.ofColumn
  columns := schema.columns.map fun c =>
    ⟨.data c.dataType, [zeroValue c.dataType, zeroValue c.dataType]⟩
  numRows := 2
  typed := by
    rw [List.map_map, List.map_map]
    rfl
  lengths := by
    intro a member
    obtain ⟨c, _, rfl⟩ := List.mem_map.mp member
    rfl

/-- A predicate names columns of the schema. -/
theorem fits_schema (w : WherePredicate schema) : w.Fits (schema.columns.map Field.ofColumn) := by
  have operand : ∀ {t : DataType} (e : Operand schema t),
      e.Fits (schema.columns.map Field.ofColumn) := by
    intro t e
    cases e with
    | literal l => trivial
    | column ref typed =>
        have first : (schema.columns.map Field.ofColumn).find? (fun f => f.name = ref.column.name) =
            some (Field.ofColumn ref.column) := by
          rw [List.find?_map]
          have found := ref.found
          rw [TableSchema.find] at found
          exact congrArg (Option.map Field.ofColumn) found
        rw [Operand.Fits, operandType, first]
        rfl
  induction w with
  | comparison c => exact ⟨operand c.left, operand c.right⟩
  | integers left op right => trivial
  | truth b => trivial
  | logical left op right ihLeft ihRight => exact ⟨ihLeft, ihRight⟩

/-- A filter whose predicate cannot be evaluated returns the error. -/
theorem filterExec_of_err {predicate : PhysicalExpr} {batch : RecordBatch} {e : ExecutionError}
    (failed : evaluatePredicate predicate batch = .err e) :
    (filterExec predicate).result () [.ok batch] = some [.error e] := by
  have failed' : filterBatch predicate batch = .err e := by
    rw [filterBatch, failed]
    rfl
  simp [Operator.result, Operator.feed, Operator.close, filterExec, failed']

/-- A batch of two rows with a mask of one entry: the first row or none. -/
theorem filterExec_of_single {predicate : PhysicalExpr} {batch : RecordBatch} {b : Bool}
    (evaluated : evaluatePredicate predicate batch = .ok [b]) (rows : 0 < batch.numRows) :
    ∃ filtered, filterBatch predicate batch = .ok filtered ∧
      filtered.numRows = if b then 1 else 0 := by
  obtain ⟨filtered, made, _, kept⟩ := @RecordBatch.filter_eq_ok batch [b] rows
  refine ⟨filtered, ?_, ?_⟩
  · rw [filterBatch, evaluated, Outcome.ok_bind, made]
    rfl
  · rw [← RecordBatch.rows_length, kept]
    have some' : batch.rows.length = batch.numRows := RecordBatch.rows_length batch
    cases rest : batch.rows with
    | nil =>
        rw [rest, List.length_nil] at some'
        omega
    | cons row rest => cases b <;> simp [keep]

/-- A predicate with the same value on every row keeps all rows or none. -/
theorem filter_constant {rows : List NamedRow} {w : WherePredicate schema} {b : Bool}
    (constant : ∀ row, w.holds row = b) :
    (rows.filter fun row => w.holds row) = if b then rows else [] := by
  cases b <;> simp [constant]

/-- What the filter must do: return Ok and keep exactly the rows of which the predicate is
true. -/
def KeepsExactly (w : WherePredicate schema) (plan : PhysicalPlan) : Prop :=
  ∀ batches : List RecordBatch, (∀ b ∈ batches, 0 < b.numRows ∧ w.Fits b.fields) →
    ∃ emitted : List RecordBatch, runWhere plan batches = some (emitted.map .ok) ∧
      emitted.flatMap RecordBatch.namedRows =
        (batches.flatMap RecordBatch.namedRows).filter fun row => w.holds row

theorem keepsExactly_of_columns {w : WherePredicate schema} {p : PhysicalExpr}
    (computes : Computes w p) (columns : w.Remains ComparesColumn) (input : PhysicalPlan) :
    KeepsExactly w (.filter p input) := by
  intro batches fit
  obtain ⟨evaluable, means⟩ := computes.all columns
  have masked : ∀ b ∈ batches, Masked p b := fun b member =>
    evaluatePredicate_eq (evaluable b.fields (fit b member).2)
  refine ⟨_, filterExec_result masked, ?_⟩
  rw [keptBatch_rows masked]
  exact List.filter_congr fun row _ => means row

theorem keepsExactly_of_false {w : WherePredicate schema} {p : PhysicalExpr}
    (computes : Computes w p) (large : w.Remains ComparesLarge)
    (noRounded : w.holdsRounded [] = false) (noRow : w.holds [] = false) (input : PhysicalPlan) :
    KeepsExactly w (.filter p input) := by
  intro batches fit
  have dropped : ∀ b ∈ batches,
      ∃ filtered, filterBatch p b = .ok filtered ∧ filtered.numRows = 0 := by
    intro b member
    obtain ⟨filtered, made, count⟩ :=
      filterExec_of_single (computes.single large b) (fit b member).1
    exact ⟨filtered, made, by simpa [noRounded] using count⟩
  refine ⟨[], ?_, ?_⟩
  · have filters := filterExec_of_filters fun b member =>
      (dropped b member).imp fun _ both => both.1
    have nothing : batches.filterMap (keptBatch p) = [] := by
      rw [List.filterMap_eq_nil_iff]
      intro b member
      obtain ⟨filtered, made, count⟩ := dropped b member
      simp [keptBatch, made, count]
    rw [nothing] at filters
    exact filters
  · rw [filter_constant fun row => (WherePredicate.holds_of_large large row).1.trans noRow]
    rfl

/-- A filter that fails on two rows of zeros does not keep exactly the matching rows. -/
theorem not_keepsExactly_of_err {w : WherePredicate schema} {p : PhysicalExpr}
    {e : ExecutionError} (failed : evaluatePredicate p (twoZeros schema) = .err e)
    (input : PhysicalPlan) : ¬ KeepsExactly w (.filter p input) := by
  intro keeps
  obtain ⟨emitted, ran, _⟩ := keeps [twoZeros schema] (by
    intro b member
    rw [List.mem_singleton.mp member]
    exact ⟨Nat.two_pos, fits_schema w⟩)
  rw [runWhere, List.map_singleton, filterExec_of_err failed] at ran
  cases emitted with
  | nil => cases ran
  | cons b rest => cases ran

/-- A mask of one entry on two rows keeps all rows or none only if it keeps none. -/
theorem none_of_keepsExactly {w : WherePredicate schema} {p : PhysicalExpr}
    (computes : Computes w p) (large : w.Remains ComparesLarge) (input : PhysicalPlan)
    (keeps : KeepsExactly w (.filter p input)) :
    w.holdsRounded [] = false ∧ w.holds [] = false := by
  obtain ⟨emitted, ran, rows⟩ := keeps [twoZeros schema] (by
    intro b member
    rw [List.mem_singleton.mp member]
    exact ⟨Nat.two_pos, fits_schema w⟩)
  obtain ⟨filtered, made, count⟩ :=
    filterExec_of_single (computes.single large (twoZeros schema)) Nat.two_pos
  have filters := @filterExec_of_filters p [twoZeros schema] (by
    intro b member
    rw [List.mem_singleton.mp member]
    exact ⟨filtered, made⟩)
  have same : emitted = [twoZeros schema].filterMap (keptBatch p) := by
    have equal := Option.some.inj (ran.symm.trans filters)
    exact List.map_injective_iff.mpr (fun _ _ => Except.ok.inj) equal
  have total : (emitted.flatMap RecordBatch.namedRows).length =
      if w.holdsRounded [] then 1 else 0 := by
    rw [same]
    cases value : w.holdsRounded [] <;> simp [keptBatch, made, count, value]
  rw [rows, filter_constant fun row => (WherePredicate.holds_of_large large row).1] at total
  cases value : w.holds [] <;> cases rounded : w.holdsRounded [] <;>
    simp [value, rounded, twoZeros] at total ⊢

/-- **When a WHERE clause runs and means what it says.** The filter that planning leaves of a
supported predicate returns Ok on all batches and keeps exactly the rows of which the
predicate is true, if and only if its constants, read from the left, make it true, or are
neutral operands on the left of comparisons with a column. (Comparisons of two integers
beyond 64 bits run as well, if the predicate is false both as written and as doubles.) -/
theorem whereFilter_keeps_iff (cols : List String) (w : WherePredicate schema) :
    (∃ plan, planWhere schema cols w.toExpr = .ok plan ∧ KeepsExactly w plan) ↔
    (w.FixedTo true ∨ w.Remains ComparesColumn ∨
      (w.Remains ComparesLarge ∧ w.holdsRounded [] = false ∧ w.holds [] = false)) := by
  rcases planWhere_cases cols w with
    ⟨fixed, planned⟩ | ⟨fixed, planned⟩ | ⟨p, computes, notFixed, planned⟩
  · rw [planned]
    refine ⟨fun _ => .inl fixed, fun _ => ⟨_, rfl, ?_⟩⟩
    intro batches _
    refine ⟨batches, rfl, ?_⟩
    rw [filter_constant fun row => (WherePredicate.holds_of_fixedTo fixed row).1]
    rfl
  · rw [planned]
    constructor
    · rintro ⟨plan, same, keeps⟩
      cases same
      exact (not_keepsExactly_of_err rfl _ keeps).elim
    · rintro (true' | columns | ⟨large, _⟩)
      · cases WherePredicate.fixedTo_inj fixed true'
      · exact (WherePredicate.not_fixedTo_of_column columns false fixed).elim
      · exact (WherePredicate.not_fixedTo_of_large large false fixed).elim
  · rw [planned]
    constructor
    · rintro ⟨plan, same, keeps⟩
      cases same
      by_cases columns : w.Remains ComparesColumn
      · exact .inr (.inl columns)
      · by_cases large : w.Remains ComparesLarge
        · exact .inr (.inr ⟨large, none_of_keepsExactly computes large _ keeps⟩)
        · obtain ⟨e, failed⟩ := computes.fails columns large (twoZeros schema) (fits_schema w)
            (by simp [twoZeros])
          exact (not_keepsExactly_of_err failed _ keeps).elim
    · rintro (true' | columns | ⟨large, noRounded, noRow⟩)
      · exact (notFixed true true').elim
      · exact ⟨_, rfl, keepsExactly_of_columns computes columns _⟩
      · exact ⟨_, rfl, keepsExactly_of_false computes large noRounded noRow _⟩

/-! ## A constant on the right -/

/-- A table with a Bool column. -/
def switchSchema : TableSchema := ⟨"t", [⟨"flag", .bool⟩]⟩

/-- `flag = TRUE`. -/
def flagIsTrue : Comparison switchSchema where
  type := .bool
  left := .column ⟨⟨"flag", .bool⟩, rfl, false⟩ rfl
  op := .eq
  right := .literal ⟨.boolean true, .bool true, rfl, true, rfl⟩
  column := .inl ⟨_, _, rfl⟩

/-- `TRUE AND flag = TRUE` keeps the matching row. With the sides of AND exchanged the
filter is an error, and so it is on `FALSE`. -/
theorem whereFilter_fails :
    (∃ plan kept, planWhere switchSchema ["flag"]
        (WherePredicate.logical (.truth true) .and (.comparison flagIsTrue)).toExpr = .ok plan ∧
      runWhere plan [twoFlags] = some [.ok kept] ∧ kept.rows = [[⟨.data .bool, true⟩]]) ∧
    (∃ plan e, planWhere switchSchema ["flag"]
        (WherePredicate.logical (.comparison flagIsTrue) .and (.truth true)).toExpr = .ok plan ∧
      runWhere plan [twoFlags] = some [.error e]) ∧
    ∃ plan e, planWhere switchSchema ["flag"]
        (WherePredicate.truth false : WherePredicate switchSchema).toExpr = .ok plan ∧
      runWhere plan [twoFlags] = some [.error e] :=
  ⟨⟨_, _, rfl, rfl, rfl⟩, ⟨_, _, rfl, rfl⟩, _, _, rfl, rfl⟩

end TinyOlap.Execution
