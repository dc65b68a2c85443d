import TinyOlap.Execution.ZoneMapSkip
import TinyOlap.Physical.WherePredicate

/-!
# How sharp skipping is

The bounds of an integer column are stored as 64-bit integers, and decoded as such by the test
that may skip a part. The test is exact: it skips exactly if no integer between the bounds
satisfies the comparison. But a literal that is compared with a narrower column has been
narrowed to the type of the column, and the test knows 64-bit literals only, so a part is never
skipped by the bounds of a column of 8, 16 or 32 bits.
-/

set_option autoImplicit false

namespace TinyOlap.Execution

open Library Catalog Arrow Storage Frontend Physical

/-! ## The test -/

/-- **The test is exact** on integers: the bounds rule a comparison out exactly if no integer
between them satisfies it. -/
theorem cmpCanSkip_iff {op : CmpOp} {min max v : Int} (between : min ≤ max) :
    cmpCanSkip op min max v = true ↔
      ∀ x, min ≤ x → x ≤ max → op.test (cmpInt x v) = false := by
  constructor
  · intro skips x lower upper
    exact not_test_of_cmpCanSkip skips lower upper
  · intro fails
    -- the comparison fails at both bounds, and at the literal if that lies between them
    have atMin := fails min le_rfl between
    have atMax := fails max between le_rfl
    have atValue : ¬ (min ≤ v ∧ v ≤ max ∧ op.test (cmpInt v v) = true) := by
      rintro ⟨lower, upper, passes⟩
      rw [fails v lower upper] at passes
      cases passes
    rw [← Bool.not_eq_true, test_cmpInt] at atMin atMax
    rw [test_cmpInt] at atValue
    cases op <;>
      simp only [cmpCanSkip, decide_eq_true_eq, Bool.or_eq_true, Bool.and_eq_true, and_true]
        at atMin atMax atValue ⊢ <;>
      omega

theorem decoded_signed {t : IntType} (signed : t.signed = true) (v : t.Native) :
    (MachineInt.ofLeBytes true 63 ((MachineInt.wrap true 63 v.val).toLeBytes 8)).val = v.val := by
  rw [MachineInt.ofLeBytes_toLeBytes (show 8 * 8 = 63 + 1 from rfl)]
  exact widen_signed_val signed v

theorem decoded_unsigned {t : IntType} (unsigned : t.signed = false) (v : t.Native) :
    (MachineInt.ofLeBytes false 63 ((MachineInt.wrap false 63 v.val).toLeBytes 8)).val = v.val := by
  rw [MachineInt.ofLeBytes_toLeBytes (show 8 * 8 = 63 + 1 from rfl)]
  exact widen_unsigned_val unsigned v

/-- The stored bounds of an integer column are compared with a literal of its type exactly if
the type has 64 bits. -/
theorem zoneCanSkip_int (op : CmpOp) (t : IntType) (lo hi v : t.Native) :
    zoneCanSkip op (.value (.int t) v) ⟨(DataType.int t).typeTag, [widenInt t ⟨lo, hi⟩]⟩ =
      (decide (t = .i64 ∨ t = .u64) && cmpCanSkip op lo.val hi.val v.val) := by
  cases t with
  | i64 =>
      show cmpCanSkip op
        (MachineInt.ofLeBytes true 63 ((MachineInt.wrap true 63 lo.val).toLeBytes 8)).val
        (MachineInt.ofLeBytes true 63 ((MachineInt.wrap true 63 hi.val).toLeBytes 8)).val
        v.val = _
      rw [decoded_signed (t := .i64) rfl, decoded_signed (t := .i64) rfl]
      rfl
  | u64 =>
      show cmpCanSkip op
        (MachineInt.ofLeBytes false 63 ((MachineInt.wrap false 63 lo.val).toLeBytes 8)).val
        (MachineInt.ofLeBytes false 63 ((MachineInt.wrap false 63 hi.val).toLeBytes 8)).val
        v.val = _
      rw [decoded_unsigned (t := .u64) rfl, decoded_unsigned (t := .u64) rfl]
      rfl
  | i8 | i16 | i32 | u8 | u16 | u32 => rfl

/-! ## Stored bounds -/

/-- The tracked bounds are values of the column and bound all of them. -/
theorem zoneMapEntry_mem {t : IntType} {values : List t.Native} {z : ZoneMapEntry t.Native}
    (bounds : zoneMapEntry values = some z) : z.min ∈ values ∧ z.max ∈ values := by
  obtain ⟨min, tracksMin, rest⟩ := Option.bind_eq_some_iff.mp bounds
  obtain ⟨max, tracksMax, last⟩ := Option.bind_eq_some_iff.mp rest
  cases last
  have least := @foldl_track _ _ _ _ (fun v : t.Native => v.val) _ (fun _ _ => rfl) _ tracksMin
  have reversed : ∀ a b : t.Native, decide (b.val < a.val) = decide (-a.val < -b.val) := by
    intro a b
    rw [decide_eq_decide]
    omega
  have greatest := @foldl_track _ _ _ _ (fun v : t.Native => -v.val) _ reversed _ tracksMax
  exact ⟨least.1, greatest.1⟩

/-- What a written part has stored for an integer column: the least and the greatest of its
values. -/
theorem exists_stored_bounds {schema : TableSchema} {batch : RecordBatch}
    {partDir : PartDir} (distinct : schema.Distinct) (zoned : ZonedPart schema batch partDir)
    {c : ColumnSchema} (member : c ∈ schema.columns) {t : IntType} (type : c.dataType = .int t)
    (stored : (loadZoneMap partDir).get c.name ≠ none) :
    ∃ (values : List t.Native) (lo hi : t.Native),
      (c, ⟨.data (.int t), values⟩) ∈ schema.columns.zip batch.columns ∧
      lo ∈ values ∧ hi ∈ values ∧ (∀ v ∈ values, lo.val ≤ v.val ∧ v.val ≤ hi.val) ∧
      (loadZoneMap partDir).get c.name =
        some ⟨(DataType.int t).typeTag, [widenInt t ⟨lo, hi⟩]⟩ := by
  obtain ⟨entries, sublist, read⟩ := zoned.zones
  have loaded : loadZoneMap partDir = insertZones entries .empty := by
    rw [loadZoneMap, read]
  obtain ⟨zone, found⟩ := Option.ne_none_iff_exists'.mp stored
  rw [loaded] at found ⊢
  rcases insertZones_get found with ⟨e, serialized, named, rfl⟩ | empty
  · obtain ⟨⟨col, array⟩, paired, bounds⟩ := List.mem_filterMap.mp (sublist.subset serialized)
    have same : col = c := by
      have sameName : col.name = c.name := (encodeZone_colName bounds).symm.trans named
      exact List.inj_on_of_nodup_map distinct (List.of_mem_zip paired).1 member sameName
    subst same
    obtain ⟨values, z, rfl, tracked, widened⟩ := encodeZone_int type bounds
    obtain ⟨minMember, maxMember⟩ := zoneMapEntry_mem tracked
    refine ⟨values, z.min, z.max, paired, minMember, maxMember, zoneMapEntry_bounds tracked, ?_⟩
    rw [found, EncodedZoneMapEntry.zone, encodeZone_typeTag bounds, widened, type]
  · cases empty

/-! ## The predicate -/

/-- An integer literal that the analyzer accepts for an integer column, and that is a signed
64-bit integer, becomes a literal of the column's type. -/
theorem exists_typedLiteral {t : IntType} {text : String} {n : Int}
    (stands : Decimal.integer text = some n) (lower : minVal true 63 ≤ n)
    (upper : n ≤ maxVal true 63)
    (compatible : checkTypeCompat (.int t) (.number text) = .ok ()) :
    ∃ l : TypedLiteral (.int t), l.written = .number text ∧ l.value.val = n := by
  obtain ⟨m, same, inside⟩ := checkTypeCompat_int compatible
  obtain rfl : n = m := Option.some.inj (stands.symm.trans same)
  have parsed : Decimal.parseInt true 63 text = some ⟨n, lower, upper⟩ :=
    Decimal.parseInt_signed.mpr stands
  have range : MachineInt.ofInt? t.signed t.top n = some ⟨n, inside.1, inside.2⟩ :=
    MachineInt.ofInt?_eq_some.mpr rfl
  exact ⟨{
    written := .number text
    lit := .int ⟨n, lower, upper⟩
    lowered := by rw [Logical.lowerLiteral, parsed]
    value := ⟨n, inside.1, inside.2⟩
    narrowed := by
      rw [narrowLiteral, range]
      rfl }, rfl, rfl⟩

/-- The analyzer checks the literal against the type of the column. -/
theorem checkTypeCompat_of_preVisitExpr {schema : TableSchema} (ref : ColumnRef schema)
    {op : BinaryOperator} {v : SqlValue}
    (accepted : preVisitExpr schema (.binaryOp ref.toExpr op (.value v)) = .ok ()) :
    checkTypeCompat ref.column.dataType v = .ok () := by
  obtain ⟨_, sides, _⟩ := Outcome.bind_eq_ok.mp accepted
  rw [checkSides, resolveColumnExpr_columnRef, Outcome.ok_bind] at sides
  exact sides

/-- The predicate that a WHERE comparison becomes: its logical expression with the casts of
type coercion, lowered to a physical one. -/
def comparePredicate (schema : TableSchema) (e : Frontend.Expr) : TextResult PhysicalExpr := do
  let logical ← Logical.lowerExpr schema e
  let coerced ← Logical.coerceExpr schema logical
  lowerExpr coerced

/-- **How sharp skipping is.** Take the part that an accepted insert adds, and the bounds it has
stored for an integer column. A comparison of the column with an integer that the analyzer
accepts, and that is a signed 64-bit integer, becomes a predicate. That the part is skipped
exactly if no integer between the bounds satisfies the comparison is true if and only if the
column has 64 bits, or some integer between the bounds does satisfy it. -/
theorem zoneMapCanSkip_sharp_iff (lz4 : Lz4) (w w' : TableWriter) (batch : InsertBatch)
    (m : PartMetadata) (distinct : w.schema.Distinct)
    (accepted : w.insert lz4 batch = (.ok m, w'))
    (ref : ColumnRef w.schema) {t : IntType} (type : ref.column.dataType = .int t)
    (stored : (loadZoneMap (w'.part m.partId)).get ref.column.name ≠ none) :
    ∃ (values : List t.Native) (lo hi : t.Native),
      (ref.column, ⟨.data (.int t), values⟩) ∈ w.schema.columns.zip batch.columns ∧
      lo ∈ values ∧ hi ∈ values ∧ (∀ v ∈ values, lo.val ≤ v.val ∧ v.val ≤ hi.val) ∧
      (loadZoneMap (w'.part m.partId)).get ref.column.name =
        some ⟨(DataType.int t).typeTag, [widenInt t ⟨lo, hi⟩]⟩ ∧
      ∀ (op : CmpOp) (text : String) (n : Int), Decimal.integer text = some n →
        minVal true 63 ≤ n → n ≤ maxVal true 63 →
        preVisitExpr w.schema (.binaryOp ref.toExpr op.sql (.value (.number text))) = .ok () →
        ∃ predicate, comparePredicate w.schema
            (.binaryOp ref.toExpr op.sql (.value (.number text))) = .ok predicate ∧
          ((zoneMapCanSkip (loadZoneMap (w'.part m.partId)) predicate = true ↔
              ∀ x : Int, lo.val ≤ x → x ≤ hi.val → op.test (cmpInt x n) = false) ↔
            t = .i64 ∨ t = .u64 ∨
              ∃ x : Int, lo.val ≤ x ∧ x ≤ hi.val ∧ op.test (cmpInt x n) = true) := by
  have zoned := TableWriter.insert_zoned accepted
  obtain ⟨values, lo, hi, paired, loMember, hiMember, bounds, found⟩ :=
    exists_stored_bounds distinct zoned (TableSchema.find_some ref.found).1 type stored
  refine ⟨values, lo, hi, paired, loMember, hiMember, bounds, found, ?_⟩
  intro op text n stands lower upper checked
  obtain ⟨l, writes, value⟩ := exists_typedLiteral stands lower upper
    (type ▸ checkTypeCompat_of_preVisitExpr ref checked)
  let c : Comparison w.schema :=
    { type := .int t, left := .column ref type, op := op, right := .literal l,
      column := .inl ⟨ref, type, rfl⟩ }
  have planned : comparePredicate w.schema
      (.binaryOp ref.toExpr op.sql (.value (.number text))) = .ok c.toPhysical := by
    rw [comparePredicate, ← writes]
    show (Logical.lowerExpr w.schema c.toExpr >>= _) = _
    rw [c.lower_toExpr, Outcome.ok_bind, c.coerce_toLogical, Outcome.ok_bind, c.lower_coerced]
  refine ⟨c.toPhysical, planned, ?_⟩
  have skips : zoneMapCanSkip (loadZoneMap (w'.part m.partId)) c.toPhysical =
      (decide (t = .i64 ∨ t = .u64) && cmpCanSkip op lo.val hi.val n) := by
    refine (zoneMapCanSkip_of_get found op (.value (.int t) l.value)).trans ?_
    simp only [zoneCanSkip_int, value]
  rw [skips, Bool.and_eq_true, decide_eq_true_eq, cmpCanSkip_iff (bounds hi hiMember).1]
  constructor
  · intro sharp
    by_contra wide
    simp only [not_or, not_exists, not_and, Bool.not_eq_true] at wide
    obtain ⟨notI64, notU64, fails⟩ := wide
    rcases (sharp.mpr fails).1 with same | same
    · exact notI64 same
    · exact notU64 same
  · rintro (wide | wide | ⟨x, above, below, passes⟩)
    · exact ⟨fun both => both.2, fun fails => ⟨.inl wide, fails⟩⟩
    · exact ⟨fun both => both.2, fun fails => ⟨.inr wide, fails⟩⟩
    · refine ⟨fun both => both.2, fun fails => ?_⟩
      rw [fails x above below] at passes
      cases passes

/-! ## A narrow column and a wide one -/

/-- A table with a narrow column `a` and a wide column `b`. -/
def widthSchema : TableSchema := ⟨"t", [⟨"a", .int .i8⟩, ⟨"b", .int .i64⟩]⟩

/-- A batch with the values `5` and `9` in both. -/
def fivesAndNines : InsertBatch where
  fields := [⟨"a", .data (.int .i8)⟩, ⟨"b", .data (.int .i64)⟩]
  columns := [⟨.data (.int .i8), [MachineInt.wrap true 7 5, MachineInt.wrap true 7 9]⟩,
    ⟨.data (.int .i64), [MachineInt.wrap true 63 5, MachineInt.wrap true 63 9]⟩]
  numRows := 2
  typed := rfl
  lengths := by decide
  offsets := by decide

/-- The columns of the table. -/
def columnA : ColumnRef widthSchema := ⟨⟨"a", .int .i8⟩, rfl, false⟩
def columnB : ColumnRef widthSchema := ⟨⟨"b", .int .i64⟩, rfl, false⟩

set_option maxRecDepth 4000 in
/-- The batch is inserted into an empty table. -/
theorem insert_fivesAndNines : ∃ w',
    TableWriter.insert Lz4.literals (.open widthSchema .dataDir) fivesAndNines =
        (.ok ⟨0, 2⟩, w') ∧
      (loadZoneMap (w'.part 0)).get "a" = some ⟨(DataType.int .i8).typeTag,
        [widenInt .i8 ⟨MachineInt.wrap true 7 5, MachineInt.wrap true 7 9⟩]⟩ ∧
      (loadZoneMap (w'.part 0)).get "b" = some ⟨(DataType.int .i64).typeTag,
        [widenInt .i64 ⟨MachineInt.wrap true 63 5, MachineInt.wrap true 63 9⟩]⟩ :=
  ⟨_, rfl, by decide +kernel, by decide +kernel⟩

/-- The bounds `5` and `9` of the narrow column rule `a > 100` out, but the part is not
skipped. -/
theorem narrow_column_not_skipped : ∃ w' predicate,
    TableWriter.insert Lz4.literals (.open widthSchema .dataDir) fivesAndNines =
        (.ok ⟨0, 2⟩, w') ∧
      (loadZoneMap (w'.part 0)).get "a" = some ⟨(DataType.int .i8).typeTag,
        [widenInt .i8 ⟨MachineInt.wrap true 7 5, MachineInt.wrap true 7 9⟩]⟩ ∧
      preVisitExpr widthSchema (.binaryOp columnA.toExpr .gt (.value (.number "100"))) = .ok () ∧
      comparePredicate widthSchema (.binaryOp columnA.toExpr .gt (.value (.number "100"))) =
        .ok predicate ∧
      zoneMapCanSkip (loadZoneMap (w'.part 0)) predicate = false ∧
      ∀ x : Int, 5 ≤ x → x ≤ 9 → CmpOp.gt.test (cmpInt x 100) = false := by
  obtain ⟨w', accepted, boundsA, _⟩ := insert_fivesAndNines
  refine ⟨w', _, accepted, boundsA, by decide +kernel, rfl, ?_, ?_⟩
  · exact (zoneMapCanSkip_of_get boundsA .gt _).trans rfl
  · intro x lower upper
    rw [← Bool.not_eq_true, test_cmpInt]
    omega

/-- The bounds of the wide column are used, and used exactly. -/
theorem zoneMapCanSkip_sharp_iff_wide :
    ∃ (w' : TableWriter) (predicate : PhysicalExpr) (lo hi : I64),
    (loadZoneMap (w'.part 0)).get "b" =
        some ⟨(DataType.int .i64).typeTag, [widenInt .i64 ⟨lo, hi⟩]⟩ ∧
      comparePredicate widthSchema (.binaryOp columnB.toExpr .gt (.value (.number "100"))) =
        .ok predicate ∧
      (zoneMapCanSkip (loadZoneMap (w'.part 0)) predicate = true ↔
        ∀ x : Int, lo.val ≤ x → x ≤ hi.val → CmpOp.gt.test (cmpInt x 100) = false) := by
  obtain ⟨w', accepted, _, boundsB⟩ := insert_fivesAndNines
  have stored : (loadZoneMap (w'.part 0)).get columnB.column.name ≠ none := by
    rw [show columnB.column.name = "b" from rfl, boundsB]
    simp
  obtain ⟨values, lo, hi, _, _, _, _, found, sharp⟩ :=
    zoneMapCanSkip_sharp_iff Lz4.literals _ w' fivesAndNines ⟨0, 2⟩ (by decide) accepted
      columnB (t := .i64) rfl stored
  obtain ⟨predicate, planned, skips⟩ := sharp .gt "100" 100 (by decide) (by decide) (by decide)
    (by decide +kernel)
  exact ⟨w', predicate, lo, hi, found, planned, skips.mpr (.inl rfl)⟩

end TinyOlap.Execution
