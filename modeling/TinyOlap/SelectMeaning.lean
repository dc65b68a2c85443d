import TinyOlap.Logical.LowerMeaning
import TinyOlap.Logical.OptimizerMeaning
import TinyOlap.RowPlan
import TinyOlap.SelectAccepted

/-!
# What a query returns is what it says

The rows that a SELECT of columns returns were described by the predicate of its WHERE clause
and the columns of its list. Here they are compared with the meaning that the SQL text has over a
table: the literals in it are numbers and strings without a type, and its clauses are read one
after another. A row of the table stands for a stored one if it has the same values. Then the two
descriptions agree (`queryMeaning_rowQuery`), for any reading of numbers that takes a literal as
the value that the planner makes of it.
-/

set_option autoImplicit false

/-! ## Values, rows and tables -/

namespace TinyOlap.Logical

open Library Catalog Arrow

/-- The value as it is stored. A number that was written in a query is not. -/
def Datum.stored : Datum → Option Value
  | .typed t v => some ⟨.data t, v⟩
  | _ => none

/-- A literal is taken as the value that the planner makes of it. -/
def Interpretation.Narrows (I : Interpretation) : Prop :=
  ∀ lit t v, Physical.narrowLiteral lit t = .ok (.value t v) → I.as t lit.datum = some v

theorem ofInt?_of_val (v : I64) (t : IntType) (n : t.Native) (same : n.val = v.val) :
    MachineInt.ofInt? t.signed t.top v.val = some n :=
  MachineInt.ofInt?_eq_some.mpr same

/-- The reading of numbers that the planner has. Nothing is aggregated but counted. -/
def Interpretation.planner : Interpretation where
  integer v
    | .f64 => some (Ieee.ofInt 11 52 v.val)
    | .f32 => some (Ieee.ofInt 8 23 v.val)
    | .int t => MachineInt.ofInt? t.signed t.top v.val
    | _ => none
  float v
    | .f64 => some v
    | .f32 => some (Ieee.convert 8 23 v)
    | _ => none
  aggregate := Interpretation.exact.aggregate
  integer_int := ofInt?_of_val
  float_f64 _ := rfl

theorem Interpretation.narrows_planner : planner.Narrows := by
  intro lit t v narrowed
  rcases lit with v' | f | s | b | _ <;> rcases t with (t | _ | _ | _) | _
  all_goals first | cases narrowed; rfl | cases narrowed | skip
  obtain ⟨n, range, same⟩ := Outcome.bind_eq_ok.mp narrowed
  cases same
  exact Outcome.orPanic_eq_ok.mp range

/-- The row of a table has the values of a stored row. -/
def Stands (row : Physical.NamedRow) (bindings : Bindings) : Prop :=
  List.Forall₂ (fun (cell : String × Value) (binding : String × Datum) =>
    cell.1 = binding.1 ∧ binding.2.stored = some cell.2) row bindings

theorem Stands.lookup {row : Physical.NamedRow} {bindings : Bindings}
    (stands : Stands row bindings) (name : String) :
    (bindings.lookup name).map Datum.stored = (row.lookup name).map some := by
  induction stands with
  | nil => rfl
  | @cons cell binding row bindings here _ ih =>
      obtain ⟨key, value⟩ := cell
      obtain ⟨key', d⟩ := binding
      obtain ⟨rfl, stored⟩ := here
      cases same : name == key with
      | true => simp only [List.lookup_cons, same, Option.map_some, stored]
      | false => simpa only [List.lookup_cons, same] using ih

/-- The values of columns, if all are there. -/
theorem Stands.selectCells {row : Physical.NamedRow} {bindings : Bindings}
    (stands : Stands row bindings) {names : List String} {cells : List Datum}
    (found : names.mapM (fun name => bindings.lookup name) = some cells) :
    cells.map Datum.stored = (Execution.selectCells names row).map some := by
  induction names generalizing cells with
  | nil =>
      cases found
      rfl
  | cons name names ih =>
      rw [List.mapM_cons] at found
      obtain ⟨d, here, found⟩ := Option.bind_eq_some_iff.mp found
      obtain ⟨rest, there, same⟩ := Option.bind_eq_some_iff.mp found
      cases same
      have stored := stands.lookup name
      rw [here] at stored
      obtain ⟨v, value, same⟩ := Option.map_eq_some_iff.mp stored.symm
      have selected : Execution.selectCells (name :: names) row =
          v :: Execution.selectCells names row := List.filterMap_cons_some value
      rw [List.map_cons, ih there, ← same, selected, List.map_cons]

end TinyOlap.Logical

/-! ## Predicates -/

namespace TinyOlap.Physical

open Library Catalog Arrow Frontend Logical
open WherePredicate (ComparesColumn)

variable {schema : TableSchema} {I : Interpretation} {row : NamedRow} {bindings : Bindings}

/-- The values of the columns have the types of the columns. -/
def RowTyped (schema : TableSchema) (row : NamedRow) : Prop :=
  ∀ c ∈ schema.columns, ∀ v, row.lookup c.name = some v → v.type = toArrow c.dataType

theorem rowValue_columnRef (ref : ColumnRef schema) :
    I.rowValue schema bindings ref.toExpr = bindings.lookup ref.column.name := by
  rw [ColumnRef.toExpr]
  split
  · simp only [Interpretation.rowValue, columnName, if_true]
    rfl
  · rfl

/-- The value of an operand is one of its type, and that of a column has the type already. -/
theorem rowValue_operand (narrows : I.Narrows) (stands : Stands row bindings)
    (typed : RowTyped schema row) {t : DataType} (e : Operand schema t) {d : Datum}
    (value : I.rowValue schema bindings e.toExpr = some d) :
    ∃ v : t.Native, I.as t d = some v ∧ e.value row = some ⟨.data t, v⟩ ∧
      ∀ ref same, e = .column ref same → d = .typed t v := by
  cases e with
  | column ref type =>
      cases type
      rw [Operand.toExpr, rowValue_columnRef] at value
      have stored := stands.lookup ref.column.name
      rw [value] at stored
      obtain ⟨cell, found, here⟩ := Option.map_eq_some_iff.mp stored.symm
      have typed' := typed _ (TableSchema.find_some ref.found).1 cell found
      cases d with
      | typed t' v =>
          cases here
          cases typed'
          exact ⟨v, as_typed .., found, fun _ _ _ => rfl⟩
      | integer v => cases here
      | float v => cases here
      | null => cases here
  | literal l =>
      rw [Operand.toExpr, Interpretation.rowValue, literalDatum_of_lower l.lowered] at value
      cases value
      refine ⟨l.value, narrows _ _ _ l.narrowed, rfl, fun ref same other => ?_⟩
      cases other

theorem operator_sql (op : CmpOp) : operator op.sql = some op.logical := by
  cases op <;> rfl

theorem operator_logical_sql (op : LogicalOp) : operator op.sql = some op.logical := by
  cases op <;> rfl

theorem binaryOp_compare (a b : Datum) (op : CmpOp) :
    I.binaryOp a op.logical b = (I.compare a b).map fun order => .typed .bool (op.test order) := by
  cases op <;> cases order : I.compare a b <;>
    simp [Interpretation.binaryOp, CmpOp.logical, BinaryOp.test, order]

theorem binaryOp_combine (op : LogicalOp) {a b d : Datum}
    (value : I.binaryOp a op.logical b = some d) :
    ∃ x y, a = .typed .bool x ∧ b = .typed .bool y ∧ d = .typed .bool (op.combine x y) := by
  cases op with
  | and => exact (binaryOp_bool I).1 value
  | or => exact (binaryOp_bool I).2 value

/-- The value of an operation, if it has one, comes from those of its operands. -/
theorem rowValue_binaryOp {left right : Expr} {op : BinaryOperator} {op' : BinaryOp} {d : Datum}
    (read : operator op = some op')
    (value : I.rowValue schema bindings (.binaryOp left op right) = some d) :
    ∃ a b, I.rowValue schema bindings left = some a ∧ I.rowValue schema bindings right = some b ∧
      I.binaryOp a op' b = some d := by
  rw [Interpretation.rowValue] at value
  obtain ⟨a, onLeft, value⟩ := Option.bind_eq_some_iff.mp value
  obtain ⟨b, onRight, value⟩ := Option.bind_eq_some_iff.mp value
  rw [read] at value
  exact ⟨a, b, onLeft, onRight, value⟩

/-- A comparison with a column. -/
theorem rowValue_comparison (narrows : I.Narrows) (stands : Stands row bindings)
    (typed : RowTyped schema row) (c : Comparison schema) {d : Datum}
    (value : I.rowValue schema bindings c.toExpr = some d) : d = .typed .bool (c.holds row) := by
  obtain ⟨a, b, onLeft, onRight, value⟩ := rowValue_binaryOp (operator_sql c.op) value
  obtain ⟨x, asLeft, cellLeft, typedLeft⟩ := rowValue_operand narrows stands typed c.left onLeft
  obtain ⟨y, asRight, cellRight, typedRight⟩ :=
    rowValue_operand narrows stands typed c.right onRight
  have order : I.compare a b = some (cmpNative c.type x y) := by
    rcases c.column with ⟨ref, same, column⟩ | ⟨ref, same, column⟩
    · rw [typedLeft ref same column, compare_typed_left, asRight, Option.map_some]
    · rw [typedRight ref same column, compare_typed_right, asLeft, Option.map_some]
  rw [binaryOp_compare, order, Option.map_some] at value
  rw [Comparison.holds, cellLeft, cellRight]
  simpa only [cmpValue_same, Option.any_some] using (Option.some.inj value).symm

theorem rowValue_integers {left right : IntLiteral} (small : left.Small) (small' : right.Small)
    {op : CmpOp} {d : Datum}
    (value : I.rowValue schema bindings
      (@WherePredicate.integers schema left op right).toExpr = some d) :
    d = .typed .bool (op.test (cmpInt left.value right.value)) := by
  obtain ⟨a, b, onLeft, onRight, value⟩ := rowValue_binaryOp (operator_sql op) value
  obtain ⟨i, lit, value₁⟩ := IntLiteral.lit_of_small small
  obtain ⟨j, lit', value₂⟩ := IntLiteral.lit_of_small small'
  rw [Interpretation.rowValue, literalDatum_of_lower left.lowered, lit] at onLeft
  rw [Interpretation.rowValue, literalDatum_of_lower right.lowered, lit'] at onRight
  cases onLeft
  cases onRight
  rw [binaryOp_compare] at value
  rw [← value₁, ← value₂]
  exact (Option.some.inj value).symm

/-- Constants that fix the value of a predicate fix what it says. -/
theorem rowValue_of_fixedTo {w : WherePredicate schema} {b : Bool} (fixed : w.FixedTo b) {d : Datum}
    (value : I.rowValue schema bindings w.toExpr = some d) : d = .typed .bool b := by
  induction w generalizing b d with
  | comparison c => exact fixed.elim
  | integers left op right =>
      obtain ⟨small, small', rfl⟩ := fixed
      exact rowValue_integers small small' value
  | truth c =>
      cases fixed
      exact (Option.some.inj value).symm
  | logical left op right ihLeft ihRight =>
      obtain ⟨a, a', onLeft, onRight, value⟩ := rowValue_binaryOp (operator_logical_sql op) value
      obtain ⟨x, y, rfl, rfl, rfl⟩ := binaryOp_combine op value
      rcases fixed with ⟨decided, rfl⟩ | ⟨neutral, fixed⟩
      · cases ihLeft decided onLeft
        rw [op.combine_decided]
      · cases ihLeft neutral onLeft
        cases ihRight fixed onRight
        rw [op.combine_neutral]

/-- **What a WHERE clause says of a row** is whether its predicate holds of the stored one. -/
theorem rowValue_predicate (narrows : I.Narrows) (stands : Stands row bindings)
    (typed : RowTyped schema row) {w : WherePredicate schema}
    (runs : w.FixedTo true ∨ w.Remains ComparesColumn) {d : Datum}
    (value : I.rowValue schema bindings w.toExpr = some d) : d = .typed .bool (w.holds row) := by
  rcases runs with fixed | remains
  · rw [(WherePredicate.holds_of_fixedTo fixed row).1]
    exact rowValue_of_fixedTo fixed value
  · induction w generalizing d with
    | comparison c => exact rowValue_comparison narrows stands typed c value
    | integers left op right => exact remains.elim
    | truth c => exact remains.elim
    | logical left op right ihLeft ihRight =>
        obtain ⟨a, a', onLeft, onRight, value⟩ := rowValue_binaryOp (operator_logical_sql op) value
        obtain ⟨x, y, rfl, rfl, rfl⟩ := binaryOp_combine op value
        cases ihRight onRight remains.2
        rcases remains.1 with neutral | rest
        · cases rowValue_of_fixedTo neutral onLeft
          rw [WherePredicate.holds, (WherePredicate.holds_of_fixedTo neutral row).1]
        · cases ihLeft onLeft rest
          rfl

end TinyOlap.Physical

/-! ## Queries -/

namespace TinyOlap

open Library Catalog Arrow Storage Frontend Physical Execution Logical
open WherePredicate (ComparesColumn)

variable {lz4 : Lz4} {schema : TableSchema} {I : Interpretation}

/-- WHERE keeps the rows of which its predicate holds. -/
theorem keep_where (narrows : I.Narrows) {rows : List NamedRow} {bindings : List Bindings}
    (each : List.Forall₂ Stands rows bindings) (typed : ∀ row ∈ rows, RowTyped schema row)
    {w : Option (WherePredicate schema)}
    (runs : ∀ v ∈ w, v.FixedTo true ∨ v.Remains ComparesColumn) {kept : List Bindings}
    (defined : Interpretation.keep (I.rowValue schema) (w.map WherePredicate.toExpr) bindings =
      some kept) :
    List.Forall₂ Stands (rows.filter fun row => w.all (WherePredicate.holds row)) kept := by
  cases w with
  | none =>
      cases defined
      have all : (rows.filter fun row => (none : Option (WherePredicate schema)).all
          (WherePredicate.holds row)) = rows := List.filter_eq_self.mpr fun _ _ => rfl
      rwa [all]
  | some w =>
      obtain ⟨tested, answers, defined⟩ := Option.bind_eq_some_iff.mp defined
      cases defined
      have both := (List.forall₂_and_left rows bindings).mpr ⟨typed, each⟩
      have tests : List.Forall₂ (fun row (entry : Bindings × Bool) =>
          Stands row entry.1 ∧ w.holds row = entry.2) rows tested := by
        refine forall₂_trans both (forall₂_of_mapM answers) ?_
        rintro row b entry ⟨rowTyped, here⟩ answer
        obtain ⟨d, value, answer⟩ := Option.bind_eq_some_iff.mp answer
        obtain ⟨b', truth, same⟩ := Option.bind_eq_some_iff.mp answer
        cases same
        rw [rowValue_predicate narrows here rowTyped (runs w rfl) value] at truth
        exact ⟨here, Option.some.inj truth⟩
      have kept : List.Forall₂ (fun row (entry : Bindings × Bool) =>
          Stands row entry.1 ∧ w.holds row = entry.2) (rows.filter w.holds)
          (tested.filter Prod.snd) := forall₂_filter tests fun _ _ here => here.2
      exact List.forall₂_map_right_iff.mpr (kept.imp fun _ _ here => here.1)

/-- An item of the SELECT list stands for columns. -/
theorem itemValues_item (bindings : Bindings) (item : ColumnItem schema) :
    Interpretation.itemValues schema (I.rowValue schema bindings) item.toItem =
      item.names.mapM fun name => bindings.lookup name := by
  cases item with
  | star =>
      rw [ColumnItem.toItem, ColumnItem.names, List.mapM_map]
      rfl
  | column ref aliasName =>
      have value : (I.rowValue schema bindings ref.toExpr).map (fun d => [d]) =
          [ref.column.name].mapM fun name => bindings.lookup name := by
        rw [rowValue_columnRef, List.mapM_cons, List.mapM_nil]
        cases bindings.lookup ref.column.name <;> rfl
      cases aliasName <;> exact value

theorem not_ofGroups_items (items : List (ColumnItem schema)) {select : Select}
    (projection : select.projection = items.map ColumnItem.toItem)
    (having : select.having = none) : ofGroups select [] = false := by
  rw [ofGroups, having, projection, Bool.or_eq_false_iff]
  refine ⟨rfl, List.any_eq_false.mpr fun e visited => ?_⟩
  obtain ⟨source, inside, visited⟩ := List.mem_flatMap.mp visited
  obtain ⟨item, member, exprs⟩ := List.mem_flatMap.mp inside
  obtain ⟨column, _, rfl⟩ := List.mem_map.mp member
  cases column with
  | star => cases exprs
  | column ref aliasName =>
      have same : source = ref.toExpr := by
        cases aliasName <;> exact List.mem_singleton.mp exprs
      have call : isCall ref.toExpr = false := by
        rw [ColumnRef.toExpr]
        split <;> rfl
      rw [same, visited_columnRef] at visited
      rw [List.mem_singleton.mp visited, call]
      exact Bool.false_ne_true

/-- A SELECT list of columns has the values of the columns. -/
theorem outputs_of_stands {rows : List NamedRow} {kept : List Bindings}
    (each : List.Forall₂ Stands rows kept) (items : List (ColumnItem schema))
    {outputs : List (List Logical.Datum)}
    (projected : ((kept.map (I.rowValue schema)).mapM fun scope =>
      ((items.map ColumnItem.toItem).mapM (Interpretation.itemValues schema scope)).map
        List.flatten) = some outputs) :
    outputs.map (List.map Logical.Datum.stored) =
      (rows.map (selectCells (selectNames items))).map (List.map some) := by
  induction each generalizing outputs with
  | nil =>
      cases projected
      rfl
  | @cons row b rows kept here _ ih =>
      rw [List.map_cons, List.mapM_cons] at projected
      obtain ⟨cells, made, projected⟩ := Option.bind_eq_some_iff.mp projected
      obtain ⟨rest, there, same⟩ := Option.bind_eq_some_iff.mp projected
      cases same
      have values : (selectNames items).mapM (fun name => b.lookup name) = some cells := by
        rw [selectNames, List.flatMap, mapM_flatten, List.mapM_map, ← made, List.mapM_map]
        exact congrArg _ (mapM_congr fun item _ => (itemValues_item b item).symm)
      rw [List.map_cons, List.map_cons, List.map_cons, here.selectCells values, ih there]

/-- **What a query without aggregation says**, if it says anything: the columns of its list, of
the rows of which its predicate holds. -/
theorem queryMeaning_rowQuery (narrows : I.Narrows) {items : List (ColumnItem schema)}
    {w : Option (WherePredicate schema)}
    (runs : ∀ v ∈ w, v.FixedTo true ∨ v.Remains ComparesColumn) {table : Logical.Table schema}
    {rows : List NamedRow}
    (each : List.Forall₂ Stands rows
      (table.rows.map ((schema.columns.map ColumnSchema.name).zip ·)))
    (typed : ∀ row ∈ rows, RowTyped schema row) {meant : List (List Logical.Datum)}
    (meaning : I.queryMeaning table (rowQuery schema items w none) = some meant) :
    meant.map (List.map Logical.Datum.stored) =
      ((rows.filter fun row => w.all (WherePredicate.holds row)).map
        (selectCells (selectNames items))).map (List.map some) := by
  simp only [rowQuery, Interpretation.queryMeaning] at meaning
  obtain ⟨_, _, meaning⟩ := Option.bind_eq_some_iff.mp meaning
  obtain ⟨scopes, made, meaning⟩ := Option.bind_eq_some_iff.mp meaning
  obtain ⟨sorted, order, meaning⟩ := Option.bind_eq_some_iff.mp meaning
  obtain ⟨outputs, projected, same⟩ := Option.bind_eq_some_iff.mp meaning
  cases same
  rw [sorted_nil] at order
  cases order
  obtain ⟨kept, filtered, made⟩ := Option.bind_eq_some_iff.mp made
  rw [if_neg (by rw [not_ofGroups_items items rfl rfl]; exact Bool.false_ne_true)] at made
  cases made
  exact outputs_of_stands (keep_where narrows each typed runs filtered) items projected

end TinyOlap
