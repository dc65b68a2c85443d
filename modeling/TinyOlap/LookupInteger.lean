import TinyOlap.Dml.InsertInteger
import TinyOlap.ReadBack
import TinyOlap.SelectAccepted

/-!
# Looking an integer up

A query that compares an integer column with a written integer finds the rows that have it,
if the integer is neither negative nor above the greatest signed 64-bit integer. A minus is
rejected by the validator, although the analyzer knows the negative halves of the ranges. An
unsigned integer above that bound passes the analyzer, becomes a float when the literal is
lowered, and is a panic when the cast around it is.
-/

set_option autoImplicit false

namespace TinyOlap

open Library Library.WorkPool Catalog Arrow Storage Frontend Physical Execution

variable {schema : TableSchema}

/-! ## The query -/

/-- `SELECT items FROM t WHERE c = n`. -/
def lookupQuery (items : List (ColumnItem schema)) (ref : ColumnRef schema) (n : Int) : Query :=
  whereQuery schema items (.binaryOp ref.toExpr .eq (Dml.writtenInt n))

/-- The selected cells of the rows that have a value in a column. -/
def rowsWith (schema : TableSchema) (names : List String) (column : String) (v : Value)
    (batch : RecordBatch) : List (List Value) :=
  ((tableRows schema batch).filter fun row => row.lookup column = some v).map (selectCells names)

/-- What a lookup of an integer should do, whatever is selected: be accepted by all stages, and
return the rows that were inserted and have the integer in the column. -/
def FindsInteger (ref : ColumnRef schema) {t : IntType} (v : t.Native) : Prop :=
  ∀ items : List (ColumnItem schema), selectNames items ≠ [] →
    validate (.query (lookupQuery items ref v.val)) = .ok () ∧
    analyze (.query (lookupQuery items ref v.val)) schema = .ok () ∧
    (∃ plan, Logical.lower (.query (lookupQuery items ref v.val)) schema = .ok plan) ∧
    ∀ lz4 around batches w workers,
      insertAll lz4 (.open schema (.fresh around)) batches = some w →
      (∀ batch ∈ batches, 0 < batch.numRows) → 0 < workers →
      QueryYields lz4 schema (lookupQuery items ref v.val) w.parts workers fun returned =>
        (returned.flatMap RecordBatch.rows).Perm (batches.flatMap fun batch =>
          rowsWith schema (selectNames items) ref.column.name ⟨.data (.int t), v⟩
            batch.toRecordBatch)

/-! ## An integer that is found -/

section Found

variable {ref : ColumnRef schema} {t : IntType} {v : t.Native}

/-- A written integer in the range of `i64` is a literal of every type that has it. -/
theorem exists_writtenLiteral (nonneg : 0 ≤ v.val) (small : v.val ≤ maxVal true 63) :
    ∃ l : TypedLiteral (.int t), .value l.written = Dml.writtenInt v.val ∧ l.value = v := by
  have lower : minVal true 63 ≤ v.val := (by decide : minVal true 63 ≤ 0).trans nonneg
  have parsed : Decimal.parseInt true 63 (toString v.val.natAbs) = some ⟨v.val, lower, small⟩ :=
    Dml.parseInt_natAbs (⟨v.val, lower, small⟩ : I64) nonneg
  have range : MachineInt.ofInt? t.signed t.top v.val = some v := MachineInt.ofInt?_eq_some.mpr rfl
  exact ⟨{
    written := .number (toString v.val.natAbs)
    lit := .int ⟨v.val, lower, small⟩
    lowered := by rw [Logical.lowerLiteral, parsed]
    value := v
    narrowed := by
      rw [narrowLiteral, range]
      rfl }, (Dml.writtenInt_of_nonneg nonneg).symm, rfl⟩

/-- The values in the rows of a written part have the types of their columns. -/
theorem type_of_lookup {lz4 : Lz4} {batch : RecordBatch} {partDir : PartDir}
    (distinct : schema.Distinct) (written : WrittenPart lz4 schema batch partDir)
    {row : NamedRow} (member : row ∈ tableRows schema batch) {c : ColumnSchema}
    (column : c ∈ schema.columns) {value : Value} (found : row.lookup c.name = some value) :
    value.type = toArrow c.dataType := by
  obtain ⟨cells, source, rfl⟩ := List.mem_map.mp member
  obtain ⟨_, _, split, _⟩ := List.lookup_eq_some_iff.mp found
  have paired : (c.name, value) ∈ (schema.columns.map ColumnSchema.name).zip cells := by
    rw [split]
    simp
  obtain ⟨i, here⟩ := List.mem_iff_getElem?.mp paired
  obtain ⟨named, atCell⟩ := List.getElem?_zip_eq_some.mp here
  rw [List.getElem?_map] at named
  obtain ⟨col, atColumn, sameName⟩ := Option.map_eq_some_iff.mp named
  have same : col = c :=
    List.inj_on_of_nodup_map distinct (List.mem_of_getElem? atColumn) column sameName
  obtain ⟨a, atArray, cell⟩ := exists_of_getElem? (RecordBatch.forall₂_of_mem_rowsOf source) atCell
  obtain ⟨native, _, rfl⟩ := List.mem_map.mp cell
  have types := congrArg (fun l => l[i]?) written.typed
  simp only [List.getElem?_map, atArray, atColumn, Option.map_some, same] at types
  exact Option.some.inj types

/-- The comparison that a lookup is. -/
def equalsLiteral (ref : ColumnRef schema) (type : ref.column.dataType = .int t)
    (l : TypedLiteral (.int t)) : WherePredicate schema :=
  .comparison
    { type := .int t
      left := .column ref type
      op := .eq
      right := .literal l
      column := .inl ⟨ref, type, rfl⟩ }

/-- It holds of the rows that have the integer. -/
theorem holds_equalsLiteral {lz4 : Lz4} {batch : RecordBatch} {partDir : PartDir}
    (distinct : schema.Distinct) (written : WrittenPart lz4 schema batch partDir)
    {row : NamedRow} (member : row ∈ tableRows schema batch)
    (type : ref.column.dataType = .int t) (l : TypedLiteral (.int t)) :
    (equalsLiteral ref type l).holds row =
      decide (row.lookup ref.column.name = some ⟨.data (.int t), l.value⟩) := by
  have column := (TableSchema.find_some ref.found).1
  rw [equalsLiteral, WherePredicate.holds, Comparison.holds]
  simp only [Operand.value]
  cases found : row.lookup ref.column.name with
  | none => rfl
  | some value =>
      have typed := type_of_lookup distinct written member column found
      obtain ⟨_, native⟩ := value
      rw [type] at typed
      cases typed
      rw [Bool.eq_iff_iff, decide_eq_true_eq, Option.some.injEq, Value.mk.injEq]
      simp only [cmpValue_same, Option.any_some, cmpNative, test_cmpInt, true_and, heq_eq_eq]
      exact ⟨MachineInt.ext, congrArg MachineInt.val⟩

/-- **A small integer is found.** -/
theorem findsInteger_of_small (distinct : schema.Distinct) (plain : schema.PlainNames)
    (type : ref.column.dataType = .int t) (nonneg : 0 ≤ v.val)
    (small : v.val ≤ maxVal true 63) : FindsInteger ref v := by
  obtain ⟨l, writes, rfl⟩ := exists_writtenLiteral nonneg small
  intro items nonempty
  have same : lookupQuery items ref l.value.val =
      rowQuery schema items (some (equalsLiteral ref type l)) none := by
    rw [lookupQuery, ← writes]
    rfl
  have supported : ∀ p ∈ some (equalsLiteral ref type l), p.Supported := by
    intro p member
    cases member
    exact ⟨⟨by simp, by simp⟩, .inr trivial⟩
  rw [same]
  refine ⟨validate_rowQuery _ _ _, analyze_rowQuery _ _, ⟨_, lower_rowQuery _ _⟩,
    fun lz4 around batches w workers accepted rows positive => ?_⟩
  have stored := storedAs_of_insertAll distinct plain accepted
  have yields := rowQuery_yields distinct nonempty supported stored rows positive
  have answers : batches.flatMap (fun batch => rowsWith schema (selectNames items)
        ref.column.name ⟨.data (.int t), l.value⟩ batch.toRecordBatch) =
      rowAnswers items (some (equalsLiteral ref type l)) batches := by
    refine List.flatMap_congr fun batch member => ?_
    obtain ⟨entry, _, written⟩ := exists_of_mem_right stored member
    rw [rowsWith, answer]
    congr 1
    refine List.filter_congr fun row inside => ?_
    exact (holds_equalsLiteral distinct written inside type l).symm
  rw [answers]
  exact yields

end Found

/-! ## Integers that are not found -/

section Lost

variable {items : List (ColumnItem schema)} {ref : ColumnRef schema} {t : IntType} {v : t.Native}

/-- The validator rejects a minus. -/
theorem validate_lookupQuery_of_neg (negative : v.val < 0) :
    validate (.query (lookupQuery items ref v.val)) ≠ .ok () := by
  have rejected : validateWhereExpr (.binaryOp ref.toExpr .eq (Dml.writtenInt v.val)) ≠ .ok () := by
    rw [Dml.writtenInt_of_neg negative, validateWhereExpr]
    intro accepted
    obtain ⟨_, _, accepted⟩ := Outcome.bind_eq_ok.mp accepted
    obtain ⟨_, _, accepted⟩ := Outcome.bind_eq_ok.mp accepted
    cases accepted
  intro accepted
  simp only [validate, validateQuery, lookupQuery, whereQuery, validateSelect,
    Outcome.ok_bind] at accepted
  obtain ⟨_, _, accepted⟩ := Outcome.bind_eq_ok.mp accepted
  obtain ⟨_, valid, _⟩ := Outcome.bind_eq_ok.mp accepted
  exact rejected valid

/-- The digits of an integer above the range of `i64` are lowered to a float, if at all. -/
theorem lowerLiteral_of_large (large : maxVal true 63 < v.val) {lit : Logical.LiteralValue}
    (lowered : Logical.lowerLiteral (.number (toString v.val.natAbs)) = .ok lit) :
    ∃ f, lit = .float f := by
  have nonneg : 0 ≤ v.val := (by decide : 0 ≤ maxVal true 63).trans large.le
  rcases lowerLiteral_number lowered with ⟨i, _, stands⟩ | ⟨f, same, _⟩
  · rw [Decimal.integer_toString, Int.natAbs_of_nonneg nonneg] at stands
    have upper := i.upper
    rw [← Option.some.inj stands] at upper
    exact (not_le.mpr large upper).elim
  · exact ⟨f, same⟩

/-- An integer above the range of `i64` is a panic of the planners. -/
theorem planSelect_lookupQuery_of_large (type : ref.column.dataType = .int t)
    (large : maxVal true 63 < v.val) (plan : PhysicalPlan) :
    planSelect (.query (lookupQuery items ref v.val)) schema ≠ .ok plan := by
  have nonneg : 0 ≤ v.val := (by decide : 0 ≤ maxVal true 63).trans large.le
  intro planned
  obtain ⟨logical, lowered, planned⟩ := Outcome.bind_eq_ok.mp planned
  rw [lookupQuery, lower_whereQuery, Dml.writtenInt_of_nonneg nonneg] at lowered
  obtain ⟨predicate, lowered, same⟩ := Outcome.bind_eq_ok.mp lowered
  rw [Logical.lowerExpr, ref.lower_toExpr, Outcome.ok_bind, Logical.lowerExpr] at lowered
  obtain ⟨_, literal, lowered⟩ := Outcome.bind_eq_ok.mp lowered
  obtain ⟨lit, narrowed, wrapped⟩ := Outcome.bind_eq_ok.mp literal
  obtain ⟨f, rfl⟩ := lowerLiteral_of_large large narrowed
  cases wrapped
  cases lowered
  cases same
  have coerces : Logical.coerceExpr schema (.binaryOp (.column schema.name ref.column.name) .eq
      (.literal (.float f))) = .ok (.binaryOp (.column schema.name ref.column.name) .eq
        (.cast (.literal (.float f)) (.int t))) := by
    simp only [Logical.coerceExpr, Outcome.ok_bind, Logical.isComparisonOp, if_true,
      Logical.coerceComparison, targetType_column, type]
  have optimized := optimize_logicalRows_filter (selectNames items) coerces rfl ⟨_, _, _, rfl⟩
  have panics : lowerExpr (.binaryOp (.column schema.name ref.column.name) .eq
      (.cast (.literal (.float f)) (.int t))) = .panic := rfl
  rw [optimized, Outcome.ok_bind, Physical.lower, logicalRows, logicalInput, lowerPlan,
    mapM_lowerExpr_columns, Outcome.ok_bind, lowerPlan, panics] at planned
  cases planned

end Lost

/-! ## Which integers are found -/

section Range

variable {k : Nat} {ref : ColumnRef schema} {t : IntType} {v : t.Native}

/-- A star selects something, since the schema has a column. -/
theorem selectNames_star (ref : ColumnRef schema) :
    selectNames [(.star : ColumnItem schema)] ≠ [] := by
  have member : ref.column.name ∈ selectNames [(.star : ColumnItem schema)] := by
    rw [selectNames, List.flatMap_singleton, ColumnItem.names]
    exact List.mem_map_of_mem (TableSchema.find_some ref.found).1
  exact List.ne_nil_of_mem member

theorem findsInteger_iff (distinct : schema.Distinct) (plain : schema.PlainNames)
    (type : ref.column.dataType = .int t) :
    FindsInteger ref v ↔ 0 ≤ v.val ∧ v.val ≤ maxVal true 63 := by
  constructor
  · intro finds
    obtain ⟨valid, _, _, returns⟩ := finds [.star] (selectNames_star ref)
    constructor
    · by_contra negative
      exact validate_lookupQuery_of_neg (not_le.mp negative) valid
    · by_contra large
      obtain ⟨_, _, ran, _⟩ := returns Lz4.literals Disk.dataDir.toSurroundings []
        (.open schema .dataDir) 1 rfl nofun Nat.one_pos
      obtain ⟨plan, planned, _⟩ := Outcome.bind_eq_ok.mp ran
      exact planSelect_lookupQuery_of_large type (not_le.mp large) plan planned
  · rintro ⟨nonneg, small⟩
    exact findsInteger_of_small distinct plain type nonneg small

/-- **Which integers can be stored and looked up**, if the columns have distinct names without a
slash. An INSERT stores those that are not negative, and those of them that are signed 64-bit
integers can be looked up as well. -/
theorem stored_and_found_iff (distinct : schema.Distinct) (plain : schema.PlainNames)
    (here : schema.columns[k]? = some ref.column) (type : ref.column.dataType = .int t) :
    (Dml.StoresInteger schema k v ↔ 0 ≤ v.val) ∧
    (Dml.StoresInteger schema k v ∧ FindsInteger ref v ↔
      0 ≤ v.val ∧ v.val ≤ maxVal true 63) := by
  have stores := Dml.storesInteger_iff (v := v) distinct plain here type
  refine ⟨stores, ?_⟩
  rw [stores, findsInteger_iff distinct plain type]
  exact ⟨fun both => both.2, fun range => ⟨range.1, range⟩⟩

/-- Five is stored in a column of bytes, and found. -/
theorem stored_and_found_iff_five :
    Dml.StoresInteger numberSchema 0 (t := .i8) (MachineInt.wrap true 7 5) ∧
      FindsInteger numberColumn (t := .i8) (MachineInt.wrap true 7 5) :=
  (stored_and_found_iff (by decide) (by decide) rfl rfl).2.mpr (by decide)

/-- The column `n` of a table with an unsigned column. -/
def countColumn : ColumnRef countSchema := ⟨⟨"n", .int .u64⟩, rfl, false⟩

/-- A negative byte is rejected by an INSERT and by a lookup, and a lookup of the least unsigned
integer that is no signed one panics. -/
theorem stored_and_found_fails :
    Dml.buildRecordBatch (.insert (Dml.valuesInsert [[Dml.writtenInt (-5)]])) numberSchema =
      .err ("col a, row 0: expected literal, got " ++ (Dml.writtenInt (-5)).debugText) ∧
    validate (.query (lookupQuery [.star] numberColumn (-5))) =
      .err ("Unsupported expressed in WHERE: " ++ (Dml.writtenInt (-5)).debugText) ∧
    planSelect (.query (lookupQuery [.star] countColumn 9223372036854775808)) countSchema =
      .panic ∧
    ¬ (Dml.StoresInteger numberSchema 0 (t := .i8) (MachineInt.wrap true 7 (-5)) ∧
      FindsInteger numberColumn (t := .i8) (MachineInt.wrap true 7 (-5))) := by
  refine ⟨rfl, by decide, rfl, ?_⟩
  rintro ⟨_, finds⟩
  exact absurd ((findsInteger_iff (by decide) (by decide) rfl).mp finds).1 (by decide)

end Range

end TinyOlap
