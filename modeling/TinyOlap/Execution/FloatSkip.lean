import TinyOlap.Execution.FilterResult
import TinyOlap.Execution.ZoneMapSkip

/-!
# Skipping parts by float bounds

The bounds of a float column and the test that may skip a part compare as numbers compare: a
NaN compares with nothing, and the zeros are equal. The filter compares in the total order of
the patterns. The two agree on ordinary numbers. A part is skipped although the filter would
keep a row of it exactly if the numbers in it rule the comparison out, and a value that the
numeric comparison does not see (a NaN, or the other zero) satisfies the comparison in the
total order. A NaN in the first place hides all bounds, so that nothing is skipped.
-/

set_option autoImplicit false

namespace TinyOlap.Execution

open Library Library.WorkPool Catalog Arrow Storage Physical

/-! ## Comparisons of numbers -/

/-- The comparison of floats as numbers. -/
def ieeeTest (op : CmpOp) (x v : F64) : Bool :=
  match op with
  | .eq => x.ieeeEq v
  | .notEq => !x.ieeeEq v
  | .lt => x.ieeeLt v
  | .ltEq => x.ieeeLe v
  | .gt => v.ieeeLt x
  | .gtEq => v.ieeeLe x

/-- The comparison of floats in the total order. -/
def totalTest (op : CmpOp) (x v : F64) : Bool := op.test (cmpInt x.totalKey v.totalKey)

/-- The two values are zeros, the first with the given sign and the second with the other. -/
def OtherZero (negative : Bool) (x v : F64) : Prop :=
  x.magnitude = 0 ∧ v.magnitude = 0 ∧ x.negative = negative ∧ v.negative = !negative

/-- A value that satisfies a comparison with a number in the total order only: a NaN on the side
the operator looks at, or the zero that is not the literal. -/
def Stray (op : CmpOp) (v x : F64) : Prop :=
  match op with
  | .eq => False
  | .notEq => x.isNaN = true ∨ OtherZero x.negative x v
  | .lt => (x.isNaN = true ∧ x.negative = true) ∨ OtherZero true x v
  | .ltEq => x.isNaN = true ∧ x.negative = true
  | .gt => (x.isNaN = true ∧ x.negative = false) ∨ OtherZero false x v
  | .gtEq => x.isNaN = true ∧ x.negative = false

theorem ieeeTest_iff {op : CmpOp} {x v : F64} (ordinary : x.isNaN = false)
    (number : v.isNaN = false) :
    ieeeTest op x v = true ↔
      match op with
      | .eq => x.key = v.key
      | .notEq => x.key ≠ v.key
      | .lt => x.key < v.key
      | .ltEq => x.key ≤ v.key
      | .gt => v.key < x.key
      | .gtEq => v.key ≤ x.key := by
  cases op <;>
    simp [ieeeTest, Ieee.ieeeEq, Ieee.ieeeLt, Ieee.ieeeLe, ordinary, number]

theorem totalTest_iff {op : CmpOp} {x v : F64} :
    totalTest op x v = true ↔
      match op with
      | .eq => x.totalKey = v.totalKey
      | .notEq => x.totalKey ≠ v.totalKey
      | .lt => x.totalKey < v.totalKey
      | .ltEq => x.totalKey ≤ v.totalKey
      | .gt => v.totalKey < x.totalKey
      | .gtEq => v.totalKey ≤ x.totalKey :=
  test_cmpInt op _ _

/-- How the total order ranks an ordinary number and another one. -/
theorem totalKey_cases {x v : F64} :
    (x.key < v.key ∧ x.totalKey < v.totalKey) ∨ (v.key < x.key ∧ v.totalKey < x.totalKey) ∨
      (x.key = v.key ∧ x.totalKey < v.totalKey ∧ OtherZero true x v) ∨
      (x.key = v.key ∧ v.totalKey < x.totalKey ∧ OtherZero false x v) ∨
      (x = v) := by
  rcases lt_trichotomy x.key v.key with less | same | greater
  · exact .inl ⟨less, Ieee.totalKey_lt_of_key_lt less⟩
  · rcases lt_trichotomy x.totalKey v.totalKey with below | equal | above
    · obtain ⟨zeroX, zeroV, signX, signV⟩ := (Ieee.totalKey_lt_of_key_eq same).mp below
      exact .inr (.inr (.inl ⟨same, below, zeroX, zeroV, signX, by simpa using signV⟩))
    · exact .inr (.inr (.inr (.inr (Ieee.totalKey_injective equal))))
    · obtain ⟨zeroV, zeroX, signV, signX⟩ := (Ieee.totalKey_lt_of_key_eq same.symm).mp above
      exact .inr (.inr (.inr (.inl ⟨same, above, zeroX, zeroV, signX, by simpa using signV⟩)))
  · exact .inr (.inl ⟨greater, Ieee.totalKey_lt_of_key_lt greater⟩)

/-- A value that satisfies a comparison in the total order satisfies it as a number, or is a
stray. -/
theorem ordinary_or_stray {op : CmpOp} {x v : F64} (number : v.isNaN = false)
    (passes : totalTest op x v = true) :
    (x.isNaN = false ∧ ieeeTest op x v = true) ∨ Stray op v x := by
  rw [totalTest_iff] at passes
  cases nan : x.isNaN with
  | true =>
      obtain ⟨below, above⟩ := Ieee.totalKey_lt_iff_of_isNaN nan number
      cases sign : x.negative <;> simp only [sign, iff_true, iff_false, not_lt,
        Bool.false_eq_true, Bool.true_eq_false] at below above
      all_goals cases op <;> simp only [Stray, nan, sign] at passes ⊢ <;> first | omega | simp
  | false =>
      rw [ieeeTest_iff nan number]
      rcases totalKey_cases (x := x) (v := v) with
        ⟨key, total⟩ | ⟨key, total⟩ | ⟨key, total, zero⟩ | ⟨key, total, zero⟩ | rfl
      · cases op <;> simp only [true_and] at passes ⊢ <;> omega
      · cases op <;> simp only [true_and] at passes ⊢ <;> omega
      · cases op with
        | notEq => exact .inr (.inr (zero.2.2.1.symm ▸ zero))
        | lt => exact .inr (.inr zero)
        | ltEq => exact .inl ⟨rfl, key.le⟩
        | eq | gt | gtEq => simp only at passes; omega
      · cases op with
        | notEq => exact .inr (.inr (zero.2.2.1.symm ▸ zero))
        | gt => exact .inr (.inr zero)
        | gtEq => exact .inl ⟨rfl, key.ge⟩
        | eq | lt | ltEq => simp only at passes; omega
      · cases op with
        | eq => exact .inl ⟨rfl, rfl⟩
        | ltEq | gtEq => exact .inl ⟨rfl, le_rfl⟩
        | notEq | lt | gt => simp at passes

/-- A stray satisfies the comparison in the total order. -/
theorem totalTest_of_stray {op : CmpOp} {x v : F64} (number : v.isNaN = false)
    (stray : Stray op v x) : totalTest op x v = true := by
  rw [totalTest_iff]
  have ofNaN : x.isNaN = true → (x.totalKey < v.totalKey ↔ x.negative = true) ∧
      (v.totalKey < x.totalKey ↔ x.negative = false) := fun nan =>
    Ieee.totalKey_lt_iff_of_isNaN nan number
  have ofZero : ∀ {x v : F64}, OtherZero true x v → x.totalKey < v.totalKey := by
    rintro x v ⟨zeroX, zeroV, signX, signV⟩
    simp [Ieee.totalKey, zeroX, zeroV, signX, signV]
  have swap : OtherZero false x v → OtherZero true v x := by
    rintro ⟨zeroX, zeroV, signX, signV⟩
    exact ⟨zeroV, zeroX, signV, signX⟩
  cases op with
  | eq => exact stray.elim
  | notEq =>
      rcases stray with nan | zero
      · cases sign : x.negative with
        | true => exact ((ofNaN nan).1.mpr sign).ne
        | false => exact ((ofNaN nan).2.mpr sign).ne'
      · cases sign : x.negative with
        | true => exact (ofZero (sign ▸ zero)).ne
        | false => exact (ofZero (swap (sign ▸ zero))).ne'
  | lt =>
      rcases stray with ⟨nan, sign⟩ | zero
      · exact (ofNaN nan).1.mpr sign
      · exact ofZero zero
  | ltEq => exact ((ofNaN stray.1).1.mpr stray.2).le
  | gt =>
      rcases stray with ⟨nan, sign⟩ | zero
      · exact (ofNaN nan).2.mpr sign
      · exact ofZero (swap zero)
  | gtEq => exact ((ofNaN stray.1).2.mpr stray.2).le

/-! ## Bounds of floats -/

/-- The value compares with numbers. -/
def ordinary (x : F64) : Bool := !x.isNaN

theorem lt_order (a b : F64) :
    Encoding.Primitive.lt a b = (ordinary a && ordinary b && decide (a.key < b.key)) := rfl

theorem gt_order (a b : F64) :
    Encoding.Primitive.lt b a = (ordinary a && ordinary b && decide (-a.key < -b.key)) := by
  rw [lt_order, Bool.and_comm (ordinary b)]
  congr 1
  rw [decide_eq_decide]
  omega

theorem zoneMapEntry_cons (first : F64) (rest : List F64) :
    zoneMapEntry (first :: rest) = (rest.foldl trackMin (some first)).bind fun min =>
      (rest.foldl trackMax (some first)).bind fun max =>
        some (ZoneMapEntry.mk min max) := rfl

/-- A NaN in the first place is both bounds. -/
theorem zoneMapEntry_of_nan {first : F64} (nan : first.isNaN = true) (rest : List F64) :
    zoneMapEntry (first :: rest) = some ⟨first, first⟩ := by
  have stuck : ordinary first = false := by simp [ordinary, nan]
  have min : rest.foldl trackMin (some first) = some first :=
    foldl_track_stuck lt_order stuck rest
  have max : rest.foldl trackMax (some first) = some first :=
    foldl_track_stuck gt_order stuck rest
  rw [zoneMapEntry_cons, min, max]
  rfl

/-- Behind a number in the first place the bounds are numbers, and bound all numbers. -/
theorem zoneMapEntry_of_number {first : F64} (number : first.isNaN = false) (rest : List F64) :
    ∃ min max, zoneMapEntry (first :: rest) = some ⟨min, max⟩ ∧
      min.isNaN = false ∧ max.isNaN = false ∧ min ∈ first :: rest ∧ max ∈ first :: rest ∧
      ∀ x ∈ first :: rest, x.isNaN = false → min.key ≤ x.key ∧ x.key ≤ max.key := by
  have valid : ordinary first = true := by simp [ordinary, number]
  obtain ⟨min, runMin, validMin, fromMin, belowFirst, least⟩ :=
    foldl_track_valid lt_order rest valid
  obtain ⟨max, runMax, validMax, fromMax, aboveFirst, greatest⟩ :=
    foldl_track_valid gt_order rest valid
  refine ⟨min, max, ?_, by simpa [ordinary] using validMin, by simpa [ordinary] using validMax,
    List.mem_cons.mpr fromMin, List.mem_cons.mpr fromMax, ?_⟩
  · rw [zoneMapEntry_cons, trackMin, trackMax, runMin, runMax]
    rfl
  · intro x member ordinaryX
    rcases List.mem_cons.mp member with rfl | later
    · exact ⟨belowFirst, by omega⟩
    · have valid : ordinary x = true := by simp [ordinary, ordinaryX]
      have below := least x later valid
      have above := greatest x later valid
      exact ⟨below, by omega⟩

/-- What the bounds rule out, no number between them satisfies. -/
theorem ieeeTest_of_cmpCanSkipFloat {op : CmpOp} {min max v x : F64}
    (skips : cmpCanSkipFloat op min max v = true) (ordinaryX : x.isNaN = false)
    (lower : min.key ≤ x.key) (upper : x.key ≤ max.key) :
    v.isNaN = false ∧ ieeeTest op x v = false := by
  cases op <;>
    simp only [cmpCanSkipFloat, Bool.or_eq_true, Bool.and_eq_true, Ieee.ieeeLt_iff,
      Ieee.ieeeLe_iff, Ieee.ieeeEq_iff] at skips
  all_goals
    have number : v.isNaN = false := by
      first
      | exact skips.1
      | exact skips.2.1
      | exact skips.2.2.1
      | exact skips.elim (·.1) (·.2.1)
    refine ⟨number, ?_⟩
    rw [← Bool.not_eq_true, ieeeTest_iff ordinaryX number]
    simp only
    omega

/-- If no number in a column satisfies a comparison other than equality, the bounds rule it
out. -/
theorem cmpCanSkipFloat_of_ieeeTest {op : CmpOp} {min max v : F64} (other : op ≠ .eq)
    (numberV : v.isNaN = false) (numberMin : min.isNaN = false) (numberMax : max.isNaN = false)
    (failsMin : ieeeTest op min v = false) (failsMax : ieeeTest op max v = false) :
    cmpCanSkipFloat op min max v = true := by
  rw [← Bool.not_eq_true, ieeeTest_iff numberMin numberV] at failsMin
  rw [← Bool.not_eq_true, ieeeTest_iff numberMax numberV] at failsMax
  cases op <;>
    simp only [cmpCanSkipFloat, Bool.and_eq_true, Ieee.ieeeLt_iff, Ieee.ieeeLe_iff,
      Ieee.ieeeEq_iff, numberV, numberMin, numberMax, true_and] at failsMin failsMax ⊢
  · exact (other rfl).elim
  all_goals omega

/-! ## The filter -/

/-- A batch with one column of floats. -/
def floatBatch (name : String) (values : List F64) : RecordBatch where
  fields := [⟨name, .data .f64⟩]
  columns := [⟨.data .f64, values⟩]
  numRows := values.length
  typed := rfl
  lengths := by
    intro a member
    rw [List.mem_singleton.mp member]
    rfl

/-- `name op v`. -/
def floatPredicate (name : String) (op : CmpOp) (v : F64) : PhysicalExpr :=
  .compare (.column name) op (.literal (.value .f64 v))

theorem floatBatch_namedRows (name : String) (values : List F64) :
    (floatBatch name values).namedRows = values.map fun x => [(name, ⟨.data .f64, x⟩)] := by
  have rows : List.zipWith List.cons (values.map (Value.mk (.data .f64)))
      (List.replicate values.length []) = values.map fun x => [⟨.data .f64, x⟩] := by
    induction values with
    | nil => rfl
    | cons x values ih =>
        simp only [List.length_cons, List.replicate_succ, List.map_cons, List.zipWith_cons_cons,
          ih]
  show (List.zipWith List.cons (values.map (Value.mk (.data .f64)))
    (List.replicate values.length [])).map [name].zip = _
  rw [rows, List.map_map]
  rfl

theorem holds_floatPredicate (name : String) (op : CmpOp) (v x : F64) :
    holds [(name, ⟨.data .f64, x⟩)] (floatPredicate name op v) = totalTest op x v := by
  simp only [holds, floatPredicate, operand, List.lookup_cons, beq_self_eq_true]
  rfl

/-- A filter on a column of floats keeps nothing exactly if no value satisfies the comparison in
the total order. -/
theorem filterExec_keeps_none_iff (name : String) (values : List F64) (op : CmpOp) (v : F64) :
    (filterExec (floatPredicate name op v)).result () [.ok (floatBatch name values)] = some [] ↔
      ∀ x ∈ values, totalTest op x v = false := by
  have evaluable : Evaluable (floatBatch name values).fields (floatPredicate name op v) :=
    ⟨.inl rfl, .f64, by simp [operandType, floatBatch], rfl⟩
  have masked : ∀ b ∈ [floatBatch name values], Masked (floatPredicate name op v) b := by
    intro b member
    rw [List.mem_singleton.mp member]
    exact evaluatePredicate_eq evaluable
  have result := filterExec_result masked
  have rows := keptBatch_rows masked
  rw [List.flatMap_singleton, floatBatch_namedRows] at rows
  have none_iff : ((values.map fun x => [(name, (⟨.data .f64, x⟩ : Value))]).filter
      fun row => holds row (floatPredicate name op v)) = [] ↔
        ∀ x ∈ values, totalTest op x v = false := by
    simp only [List.filter_eq_nil_iff, List.forall_mem_map, holds_floatPredicate,
      Bool.not_eq_true]
  show (filterExec _).result () ([floatBatch name values].map .ok) = some [] ↔ _
  rw [result, ← none_iff, ← rows]
  cases keeps : keptBatch (floatPredicate name op v) (floatBatch name values) with
  | none => simp [keeps]
  | some kept =>
      have some_row := (keptBatch_eq_some (masked _ (by simp)) keeps).1
      rw [← RecordBatch.namedRows_length] at some_row
      simp [keeps, List.ne_nil_of_length_pos some_row]

/-! ## When the two agree -/

/-- The first value or the literal is a NaN, or some number in the column satisfies the
comparison as numbers do, or there is no stray in the column. -/
def AgreesWithFilter (op : CmpOp) (v : F64) (values : List F64) : Prop :=
  (∃ first ∈ values.head?, first.isNaN = true) ∨ v.isNaN = true ∨
    (∃ x ∈ values, x.isNaN = false ∧ ieeeTest op x v = true) ∨ ∀ x ∈ values, ¬ Stray op v x

/-- The zone that is stored for a column of floats. -/
theorem encodeZone_floats (name : String) (values : List F64) :
    encodeZone ⟨name, .f64⟩ ⟨.data .f64, values⟩ =
      (zoneMapEntry values).map fun z =>
        ⟨name, DataType.f64.typeTag, widenFloat id z⟩ := by
  simp only [encodeZone, ArrayRef.downcast_mk, Option.bind_some]

theorem zoneCanSkip_floats (op : CmpOp) (v min max : F64) (name : String) :
    zoneCanSkip op (.value .f64 v)
      (EncodedZoneMapEntry.zone ⟨name, DataType.f64.typeTag, widenFloat id ⟨min, max⟩⟩) =
        cmpCanSkipFloat op min max v := by
  have range : 9 ≤ DataType.f64.typeTag ∧ DataType.f64.typeTag ≤ 10 := by decide
  have decoded : ∀ x : F64, Ieee.ofLeBytes 11 52 (x.toLeBytes 8) = x :=
    Ieee.ofLeBytes_toLeBytes rfl
  show (if 9 ≤ DataType.f64.typeTag ∧ DataType.f64.typeTag ≤ 10 then
    cmpCanSkipFloat op (Ieee.ofLeBytes 11 52 (min.toLeBytes 8))
      (Ieee.ofLeBytes 11 52 (max.toLeBytes 8)) v else false) = _
  rw [if_pos range, decoded, decoded]

/-- **When skipping by float bounds agrees with the filter.** For a column of any floats, an
operator and a literal: that the stored bounds rule the comparison out implies that the filter
would keep no value, exactly if the first value or the literal is a NaN, or some number in the
column satisfies the comparison, or no value is a stray: a NaN that the operator looks at, or
the other zero. -/
theorem float_skip_agrees_iff (name : String) (values : List F64) (op : CmpOp) (v : F64) :
    ((∃ e, encodeZone ⟨name, .f64⟩ ⟨.data .f64, values⟩ = some e ∧
        zoneCanSkip op (.value .f64 v) e.zone = true) →
      (filterExec (floatPredicate name op v)).result () [.ok (floatBatch name values)] =
        some []) ↔
    AgreesWithFilter op v values := by
  rw [filterExec_keeps_none_iff, encodeZone_floats]
  cases values with
  | nil =>
      refine ⟨fun _ => .inr (.inr (.inr nofun)), fun _ _ => nofun⟩
  | cons first rest =>
      cases nan : first.isNaN with
      | true =>
          refine ⟨fun _ => .inl ⟨first, rfl, nan⟩, fun _ skips => ?_⟩
          obtain ⟨e, stored, skips⟩ := skips
          rw [zoneMapEntry_of_nan nan, Option.map_some] at stored
          cases stored
          rw [zoneCanSkip_floats] at skips
          cases op <;> simp [cmpCanSkipFloat, Ieee.ieeeLt, Ieee.ieeeLe, Ieee.ieeeEq, nan] at skips
      | false =>
          obtain ⟨min, max, bounds, numberMin, numberMax, fromMin, fromMax, between⟩ :=
            zoneMapEntry_of_number nan rest
          have skips_iff : (∃ e, (zoneMapEntry (first :: rest)).map (fun z =>
              EncodedZoneMapEntry.mk name DataType.f64.typeTag (widenFloat id z)) = some e ∧
                zoneCanSkip op (.value .f64 v) e.zone = true) ↔
              cmpCanSkipFloat op min max v = true := by
            rw [bounds, Option.map_some]
            simp only [Option.some.injEq, exists_eq_left', zoneCanSkip_floats]
          rw [skips_iff]
          constructor
          · intro sound
            by_contra disagrees
            simp only [AgreesWithFilter, not_or] at disagrees
            obtain ⟨_, number, fails, strays⟩ := disagrees
            have number : v.isNaN = false := Bool.not_eq_true _ ▸ number
            push Not at strays
            obtain ⟨x, member, stray⟩ := strays
            have other : op ≠ .eq := by
              rintro rfl
              exact stray
            have failsAll : ∀ x ∈ first :: rest, x.isNaN = false → ieeeTest op x v = false :=
              fun x member ordinary => Bool.not_eq_true _ ▸ fun passes =>
                fails ⟨x, member, ordinary, passes⟩
            have skips := cmpCanSkipFloat_of_ieeeTest other number numberMin numberMax
              (failsAll min fromMin numberMin) (failsAll max fromMax numberMax)
            have kept := totalTest_of_stray number stray
            rw [sound skips x member] at kept
            cases kept
          · intro agrees skips x member
            rw [← Bool.not_eq_true]
            intro kept
            have number : v.isNaN = false :=
              (ieeeTest_of_cmpCanSkipFloat skips numberMin le_rfl
                (between min fromMin numberMin).2).1
            have fails : ∀ x ∈ first :: rest, x.isNaN = false → ieeeTest op x v = false :=
              fun x member ordinary => (ieeeTest_of_cmpCanSkipFloat skips ordinary
                (between x member ordinary).1 (between x member ordinary).2).2
            rcases agrees with ⟨_, same, nanFirst⟩ | nanV | ⟨y, inside, ordinary, passes⟩ | noStray
            · cases same
              rw [nan] at nanFirst
              cases nanFirst
            · rw [number] at nanV
              cases nanV
            · rw [fails y inside ordinary] at passes
              cases passes
            · rcases ordinary_or_stray number kept with ⟨ordinary, passes⟩ | stray
              · rw [fails x member ordinary] at passes
                cases passes
              · exact noStray x member stray

/-- `1.0` and a NaN. -/
def oneAndNaN : List F64 := [⟨0x3FF0000000000000, by decide⟩, ⟨0x7FF8000000000000, by decide⟩]

/-- The bounds of the two, both `1.0`, rule `f > 5.0` out, but the filter keeps the NaN. -/
theorem float_skip_loses_nan :
    (∃ e, encodeZone ⟨"f", .f64⟩ ⟨.data .f64, oneAndNaN⟩ = some e ∧
      zoneCanSkip .gt (.value .f64 ⟨0x4014000000000000, by decide⟩) e.zone = true) ∧
    ∃ kept : RecordBatch,
      (filterExec (floatPredicate "f" .gt ⟨0x4014000000000000, by decide⟩)).result ()
        [.ok (floatBatch "f" oneAndNaN)] = some [.ok kept] ∧
      kept.rows = [[⟨.data .f64, ⟨0x7FF8000000000000, by decide⟩⟩]] :=
  ⟨⟨_, rfl, by decide +kernel⟩, _, rfl, by decide +kernel⟩

end TinyOlap.Execution
