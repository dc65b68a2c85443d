import Mathlib.Data.List.Nodup
import TinyOlap.Physical.Meaning
import TinyOlap.Storage.TableWriter

/-!
# Skipping parts by their zone maps

A part may be skipped when its zone map shows that no row in it can satisfy the
predicate. Only a comparison of a column with a literal of the widened type of the
column's bounds decides anything.
-/

set_option autoImplicit false

namespace TinyOlap.Execution

open Library Catalog Arrow Storage Physical

/-- `cmp_can_skip_signed` and `cmp_can_skip_unsigned`: their bodies differ only in the
type of the operands. -/
def cmpCanSkip (op : CmpOp) (min max v : Int) : Bool :=
  match op with
  | .gt => decide (max ≤ v)
  | .gtEq => decide (max < v)
  | .lt => decide (min ≥ v)
  | .ltEq => decide (min > v)
  | .eq => decide (v < min) || decide (v > max)
  | .notEq => decide (min = max) && decide (min = v)

def cmpCanSkipSigned (op : CmpOp) (min max v : I64) : Bool := cmpCanSkip op min.val max.val v.val

def cmpCanSkipUnsigned (op : CmpOp) (min max v : U64) : Bool := cmpCanSkip op min.val max.val v.val

def cmpCanSkipFloat (op : CmpOp) (min max v : F64) : Bool :=
  match op with
  | .gt => max.ieeeLe v
  | .gtEq => max.ieeeLt v
  | .lt => v.ieeeLe min
  | .ltEq => v.ieeeLt min
  | .eq => v.ieeeLt min || max.ieeeLt v
  | .notEq => min.ieeeEq max && min.ieeeEq v

/-- The bounds are decoded according to the type tag, and only compared with a literal
of the type they were widened to. -/
def zoneCanSkip (op : CmpOp) (lit : LiteralValue) (colZone : ColumnZone) : Bool :=
  match colZone.entries with
  | [] => false
  | e :: _ =>
      match lit with
      | .value (.int .i64) v =>
          if 1 ≤ colZone.typeTag ∧ colZone.typeTag ≤ 4 then
            cmpCanSkipSigned op (MachineInt.ofLeBytes true 63 e.minBytes)
              (MachineInt.ofLeBytes true 63 e.maxBytes) v
          else false
      | .value (.int .u64) v =>
          if 5 ≤ colZone.typeTag ∧ colZone.typeTag ≤ 8 then
            cmpCanSkipUnsigned op (MachineInt.ofLeBytes false 63 e.minBytes)
              (MachineInt.ofLeBytes false 63 e.maxBytes) v
          else false
      | .value .f64 v =>
          if 9 ≤ colZone.typeTag ∧ colZone.typeTag ≤ 10 then
            cmpCanSkipFloat op (Ieee.ofLeBytes 11 52 e.minBytes) (Ieee.ofLeBytes 11 52 e.maxBytes) v
          else false
      | _ => false

def zoneMapCanSkip (zoneMap : ZoneMap) : PhysicalExpr → Bool
  | .compare (.column colName) op (.literal lit) =>
      match zoneMap.get colName with
      | none => false
      | some colZone => zoneCanSkip op lit colZone
  | .logical left .and right => zoneMapCanSkip zoneMap left || zoneMapCanSkip zoneMap right
  | .logical left .or right => zoneMapCanSkip zoneMap left && zoneMapCanSkip zoneMap right
  | _ => false

theorem zoneMapCanSkip_of_get {zoneMap : ZoneMap} {colName : String} {colZone : ColumnZone}
    (found : zoneMap.get colName = some colZone) (op : CmpOp) (lit : LiteralValue) :
    zoneMapCanSkip zoneMap (.compare (.column colName) op (.literal lit)) =
      zoneCanSkip op lit colZone := by
  rw [zoneMapCanSkip, found]

/-- The zone map a scan uses: an unreadable one is as good as none. -/
def loadZoneMap (partDir : PartDir) : ZoneMap :=
  match readZoneMap partDir with
  | .ok zoneMap => zoneMap
  | _ => .empty

/-! ## Bounds bound -/

/-- The tracked bounds of integers bound every one of them. -/
theorem zoneMapEntry_bounds {t : IntType} {values : List t.Native} {z : ZoneMapEntry t.Native}
    (bounds : zoneMapEntry values = some z) :
    ∀ v ∈ values, z.min.val ≤ v.val ∧ v.val ≤ z.max.val := by
  obtain ⟨min, tracksMin, rest⟩ := Option.bind_eq_some_iff.mp bounds
  obtain ⟨max, tracksMax, last⟩ := Option.bind_eq_some_iff.mp rest
  cases last
  have least := @foldl_track _ _ _ _ (fun v : t.Native => v.val) _ (fun _ _ => rfl) _ tracksMin
  have reversed : ∀ a b : t.Native, decide (b.val < a.val) = decide (-a.val < -b.val) := by
    intro a b
    rw [decide_eq_decide]
    omega
  have greatest := @foldl_track _ _ _ _ (fun v : t.Native => -v.val) _ reversed _ tracksMax
  intro v member
  have := greatest.2 v member
  exact ⟨least.2 v member, by simp only at this ⊢; omega⟩

/-- A bound widened and decoded again is the same integer. -/
theorem widen_signed_val {t : IntType} (signed : t.signed = true) (v : t.Native) :
    (MachineInt.wrap true 63 v.val).val = v.val := by
  have lower := v.lower
  have upper := v.upper
  have wide : (2 : Int) ^ t.top ≤ 2 ^ 63 := pow_le_pow_right₀ (by decide) t.top_le
  simp only [minVal, maxVal, signed, if_true] at lower upper
  exact MachineInt.wrap_val_of_range (by simp only [minVal, if_true]; omega)
    (by simp only [maxVal, if_true]; omega)

theorem widen_unsigned_val {t : IntType} (unsigned : t.signed = false) (v : t.Native) :
    (MachineInt.wrap false 63 v.val).val = v.val := by
  have lower := v.lower
  have upper := v.upper
  have wide : (2 : Int) ^ (t.top + 1) ≤ 2 ^ 64 :=
    pow_le_pow_right₀ (by decide) (by have := t.top_le; omega)
  simp only [minVal, maxVal, unsigned, Bool.false_eq_true, if_false] at lower upper
  exact MachineInt.wrap_val_of_range (by simpa [minVal] using lower)
    (by simp only [maxVal, Bool.false_eq_true, if_false]; omega)

/-- The tags of the integer types, by signedness. -/
theorem typeTag_signed {dataType : DataType} (range : 1 ≤ dataType.typeTag ∧ dataType.typeTag ≤ 4) :
    ∃ t, dataType = .int t ∧ t.signed = true := by
  match dataType with
  | .int t => cases t <;> first | exact ⟨_, rfl, rfl⟩ | exact absurd range (by decide)
  | .f32 => exact absurd range (by decide)
  | .f64 => exact absurd range (by decide)
  | .bool => exact absurd range (by decide)
  | .str => exact absurd range (by decide)

theorem typeTag_unsigned {dataType : DataType}
    (range : 5 ≤ dataType.typeTag ∧ dataType.typeTag ≤ 8) :
    ∃ t, dataType = .int t ∧ t.signed = false := by
  match dataType with
  | .int t => cases t <;> first | exact ⟨_, rfl, rfl⟩ | exact absurd range (by decide)
  | .f32 => exact absurd range (by decide)
  | .f64 => exact absurd range (by decide)
  | .bool => exact absurd range (by decide)
  | .str => exact absurd range (by decide)

theorem typeTag_float {dataType : DataType}
    (range : 9 ≤ dataType.typeTag ∧ dataType.typeTag ≤ 10) :
    dataType = .f32 ∨ dataType = .f64 := by
  match dataType with
  | .int t => cases t <;> exact absurd range (by decide)
  | .f32 => exact .inl rfl
  | .f64 => exact .inr rfl
  | .bool => exact absurd range (by decide)
  | .str => exact absurd range (by decide)

/-- If the bounds rule a comparison out, no integer between them satisfies it. -/
theorem not_test_of_cmpCanSkip {op : CmpOp} {min max v x : Int}
    (skips : cmpCanSkip op min max v = true) (lower : min ≤ x) (upper : x ≤ max) :
    op.test (cmpInt x v) = false := by
  rw [← Bool.not_eq_true, test_cmpInt]
  intro satisfied
  cases op <;>
    simp only [cmpCanSkip, decide_eq_true_eq, Bool.or_eq_true, Bool.and_eq_true]
      at skips satisfied <;>
    omega

/-! ## Soundness -/

/-- The rows of a batch under the names of a schema's columns. -/
def tableRows (schema : TableSchema) (batch : RecordBatch) : List NamedRow :=
  batch.rows.map (schema.columns.map ColumnSchema.name).zip

/-- The operand is a column of a float type. -/
def IsFloatColumn (schema : TableSchema) : PhysicalExpr → Prop
  | .column name => ∃ c ∈ schema.columns, c.name = name ∧ (c.dataType = .f32 ∨ c.dataType = .f64)
  | _ => False

/-- Some comparison in the predicate has an operand that is a column of a float type. -/
def ComparesFloat (schema : TableSchema) : PhysicalExpr → Prop
  | .compare left _ right => IsFloatColumn schema left ∨ IsFloatColumn schema right
  | .logical left _ right => ComparesFloat schema left ∨ ComparesFloat schema right
  | _ => False

/-- The columns that a predicate compares. -/
def comparedColumns : PhysicalExpr → List String
  | .compare left _ right => comparedColumns left ++ comparedColumns right
  | .logical left _ right => comparedColumns left ++ comparedColumns right
  | .column name => [name]
  | .literal _ => []

/-- A predicate none of whose columns has an entry never causes a skip. -/
theorem zoneMapCanSkip_of_no_entry {zoneMap : ZoneMap} {predicate : PhysicalExpr}
    (none : ∀ name ∈ comparedColumns predicate, zoneMap.get name = none) :
    zoneMapCanSkip zoneMap predicate = false := by
  induction predicate with
  | column name => rfl
  | literal lit => rfl
  | compare left op right _ _ =>
      match left, right with
      | .column name, .literal lit =>
          simp only [zoneMapCanSkip, none name (by simp [comparedColumns])]
      | .column _, .column _ | .column _, .compare .. | .column _, .logical .. => rfl
      | .literal _, _ | .compare .., _ | .logical .., _ => rfl
  | logical left op right ihLeft ihRight =>
      have leftFalse := ihLeft fun name member => none name (by simp [comparedColumns, member])
      have rightFalse := ihRight fun name member => none name (by simp [comparedColumns, member])
      cases op <;> simp [zoneMapCanSkip, leftFalse, rightFalse]

/-- The value a row has under a name is a value of a column with that name. -/
theorem exists_of_lookup {columns : List ColumnSchema} {arrays : List ArrayRef} {row : List Value}
    (cells : List.Forall₂ (fun a v => v ∈ a.cells) arrays row) {name : String} {v : Value}
    (found : ((columns.map ColumnSchema.name).zip row).lookup name = some v) :
    ∃ entry ∈ columns.zip arrays, entry.1.name = name ∧ v ∈ entry.2.cells := by
  induction cells generalizing columns with
  | nil => simp at found
  | @cons a w arrays row here _ ih =>
      cases columns with
      | nil => simp at found
      | cons c columns =>
          rw [List.map_cons, List.zip_cons_cons, List.lookup_cons] at found
          by_cases same : name = c.name
          · simp only [same, beq_self_eq_true, Option.some.injEq] at found
            exact ⟨(c, a), by simp, same.symm, found ▸ here⟩
          · rw [beq_eq_false_iff_ne.mpr same] at found
            obtain ⟨entry, member, named⟩ := ih found
            exact ⟨entry, by simp [member], named⟩

/-- The bounds of an integer column, decoded from its entry. -/
theorem encodeZone_int {col : ColumnSchema} {array : ArrayRef} {e : EncodedZoneMapEntry}
    {t : IntType} (type : col.dataType = .int t) (bounds : encodeZone col array = some e) :
    ∃ (values : List t.Native) (z : ZoneMapEntry t.Native),
      array = ⟨.data (.int t), values⟩ ∧ zoneMapEntry values = some z ∧
        e.entry = widenInt t z := by
  obtain ⟨name, dataType⟩ := col
  cases (show dataType = .int t from type)
  obtain ⟨values, cast, bounds⟩ := Option.bind_eq_some_iff.mp bounds
  obtain ⟨z, tracked, rfl⟩ := Option.map_eq_some_iff.mp bounds
  exact ⟨values, z, ArrayRef.downcast_eq_some.mp cast, tracked, rfl⟩

theorem encodeZone_typeTag {col : ColumnSchema} {array : ArrayRef} {e : EncodedZoneMapEntry}
    (bounds : encodeZone col array = some e) : e.typeTag = col.dataType.typeTag := by
  unfold encodeZone at bounds
  simp only at bounds
  split at bounds
  all_goals
    first
    | cases bounds
    | (obtain ⟨values, _, bounds⟩ := Option.bind_eq_some_iff.mp bounds
       obtain ⟨z, _, rfl⟩ := Option.map_eq_some_iff.mp bounds
       rfl)

/-- If the entry of a column rules a comparison with a literal out, no value of the
column satisfies it. -/
theorem not_satisfied_of_zoneCanSkip {col : ColumnSchema} {array : ArrayRef}
    {e : EncodedZoneMapEntry} (bounds : encodeZone col array = some e)
    (notFloat : col.dataType ≠ .f32 ∧ col.dataType ≠ .f64) {op : CmpOp} {lit : LiteralValue}
    (skips : zoneCanSkip op lit e.zone = true) {cell : Value} (member : cell ∈ array.cells) :
    ∃ t v, lit = .value t v ∧ (cmpValue cell ⟨.data t, v⟩).any op.test = false := by
  simp only [zoneCanSkip, EncodedZoneMapEntry.zone, encodeZone_typeTag bounds] at skips
  split at skips
  · rename_i v
    split at skips
    · rename_i range
      obtain ⟨t, type, signed⟩ := typeTag_signed range
      obtain ⟨values, z, rfl, tracked, widened⟩ := encodeZone_int type bounds
      obtain ⟨x, inside, rfl⟩ := List.mem_map.mp member
      have bounded := zoneMapEntry_bounds tracked x inside
      simp only [widened, widenInt, signed, if_true, widenSigned, cmpCanSkipSigned,
        MachineInt.ofLeBytes_toLeBytes (show 8 * 8 = 63 + 1 from rfl),
        widen_signed_val signed] at skips
      exact ⟨_, v, rfl, not_test_of_cmpCanSkip skips bounded.1 bounded.2⟩
    · cases skips
  · rename_i v
    split at skips
    · rename_i range
      obtain ⟨t, type, unsigned⟩ := typeTag_unsigned range
      obtain ⟨values, z, rfl, tracked, widened⟩ := encodeZone_int type bounds
      obtain ⟨x, inside, rfl⟩ := List.mem_map.mp member
      have bounded := zoneMapEntry_bounds tracked x inside
      simp only [widened, widenInt, unsigned, Bool.false_eq_true, if_false, widenUnsigned,
        cmpCanSkipUnsigned, MachineInt.ofLeBytes_toLeBytes (show 8 * 8 = 63 + 1 from rfl),
        widen_unsigned_val unsigned] at skips
      exact ⟨_, v, rfl, not_test_of_cmpCanSkip skips bounded.1 bounded.2⟩
    · cases skips
  · split at skips
    · rename_i range
      exact ((typeTag_float range).elim notFloat.1 notFloat.2).elim
    · cases skips
  · cases skips

/-- **No row of a skipped part satisfies the predicate.** -/
theorem holds_of_zoneMapCanSkip {schema : TableSchema} {batch : RecordBatch}
    {partDir : PartDir} (distinct : schema.Distinct)
    (zoned : ZonedPart schema batch partDir) {predicate : PhysicalExpr}
    (noFloat : ¬ ComparesFloat schema predicate)
    (skips : zoneMapCanSkip (loadZoneMap partDir) predicate = true) :
    ∀ row ∈ tableRows schema batch, holds row predicate = false := by
  intro row member
  induction predicate with
  | column name => cases skips
  | literal lit => cases skips
  | logical left op right ihLeft ihRight =>
      rw [ComparesFloat, not_or] at noFloat
      cases op with
      | and =>
          rw [zoneMapCanSkip, Bool.or_eq_true] at skips
          rcases skips with left | right
          · rw [holds, ihLeft noFloat.1 left, Bool.false_and]
          · rw [holds, ihRight noFloat.2 right, Bool.and_false]
      | or =>
          rw [zoneMapCanSkip, Bool.and_eq_true] at skips
          rw [holds, ihLeft noFloat.1 skips.1, ihRight noFloat.2 skips.2, Bool.false_or]
  | compare left op right _ _ =>
      match left, right with
      | .column _, .column _ | .column _, .compare .. | .column _, .logical .. => cases skips
      | .literal _, _ | .compare .., _ | .logical .., _ => cases skips
      | .column name, .literal lit =>
          obtain ⟨cells, rowMember, rfl⟩ := List.mem_map.mp member
          obtain ⟨entries, sublist, read⟩ := zoned.zones
          rw [loadZoneMap, read] at skips
          simp only [zoneMapCanSkip] at skips
          split at skips
          · cases skips
          · rename_i zone found
            rcases insertZones_get found with ⟨e, serialized, rfl, rfl⟩ | empty
            · obtain ⟨⟨col, array⟩, stored, bounds⟩ :=
                List.mem_filterMap.mp (sublist.subset serialized)
              have named := encodeZone_colName bounds
              have notFloat : col.dataType ≠ .f32 ∧ col.dataType ≠ .f64 := by
                rw [ComparesFloat, not_or] at noFloat
                constructor <;> intro type <;>
                  exact noFloat.1 ⟨col, (List.of_mem_zip stored).1, named.symm, by simp [type]⟩
              rw [holds, operand]
              cases value : ((schema.columns.map ColumnSchema.name).zip cells).lookup e.colName with
              | none => rfl
              | some cell =>
                  obtain ⟨other, otherMember, sameName, inside⟩ := exists_of_lookup
                    (RecordBatch.forall₂_of_mem_rowsOf rowMember) value
                  -- the column is found by its name
                  have same : other = (col, array) := by
                    have names : ((schema.columns.zip batch.columns).map
                        fun entry => entry.1.name).Nodup := zoned.names_nodup distinct
                    exact List.inj_on_of_nodup_map names otherMember stored
                      (sameName.trans named)
                  subst same
                  obtain ⟨t, v, rfl, fails⟩ :=
                    not_satisfied_of_zoneCanSkip bounds notFloat skips inside
                  exact fails
            · cases empty

/-- **Part skipping is sound on integers.** Take the part that an accepted insert adds.
If the predicate makes a scan skip it, no row of the part satisfies the predicate.
Columns without an entry and zone maps that cannot be read never cause a skip. -/
theorem zoneMapCanSkip_sound (lz4 : Lz4) (w w' : TableWriter) (batch : InsertBatch)
    (m : PartMetadata) (distinct : w.schema.Distinct)
    (accepted : w.insert lz4 batch = (.ok m, w')) :
    (∀ predicate, ¬ ComparesFloat w.schema predicate →
      zoneMapCanSkip (loadZoneMap (w'.part m.partId)) predicate = true →
        ∀ row ∈ tableRows w.schema batch.toRecordBatch, holds row predicate = false) ∧
    (∀ predicate, (∀ name ∈ comparedColumns predicate,
        (loadZoneMap (w'.part m.partId)).get name = none) →
      zoneMapCanSkip (loadZoneMap (w'.part m.partId)) predicate = false) ∧
    ∀ (damaged : PartDir) predicate, (∀ zoneMap, readZoneMap damaged ≠ .ok zoneMap) →
      zoneMapCanSkip (loadZoneMap damaged) predicate = false := by
  refine ⟨fun predicate noFloat skips => ?_, fun _ none => zoneMapCanSkip_of_no_entry none,
    fun damaged predicate unreadable => ?_⟩
  · exact holds_of_zoneMapCanSkip distinct (TableWriter.insert_zoned accepted) noFloat skips
  · refine zoneMapCanSkip_of_no_entry fun name _ => ?_
    unfold loadZoneMap
    split
    · rename_i zoneMap read
      exact absurd read (unreadable zoneMap)
    · rfl

/-- A part with the values `5` and `9` is skipped for `a > 100`. -/
theorem zoneMapCanSkip_sound_two : ∃ w',
    TableWriter.insert Lz4.literals (.open numberSchema .dataDir) fiveAndNine =
      (.ok ⟨0, 2⟩, w') ∧
    zoneMapCanSkip (loadZoneMap (w'.part 0))
      (.compare (.column "a") .gt (.literal (.i64 (MachineInt.wrap true 63 100)))) = true ∧
    (tableRows numberSchema fiveAndNine.toRecordBatch).length = 2 ∧
    ∀ row ∈ tableRows numberSchema fiveAndNine.toRecordBatch, holds row
      (.compare (.column "a") .gt (.literal (.i64 (MachineInt.wrap true 63 100)))) = false := by
  have inserted : ∃ w', TableWriter.insert Lz4.literals (.open numberSchema .dataDir)
        fiveAndNine = (.ok ⟨0, 2⟩, w') ∧
      zoneMapCanSkip (loadZoneMap (w'.part 0))
        (.compare (.column "a") .gt (.literal (.i64 (MachineInt.wrap true 63 100)))) = true :=
    ⟨_, rfl, by decide +kernel⟩
  obtain ⟨w', accepted, skips⟩ := inserted
  exact ⟨w', accepted, skips, rfl,
    (zoneMapCanSkip_sound Lz4.literals _ w' fiveAndNine ⟨0, 2⟩ (by decide) accepted).1 _
      (by simp [ComparesFloat, IsFloatColumn, TableWriter.open, numberSchema]) skips⟩

end TinyOlap.Execution
