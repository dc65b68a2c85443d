import TinyOlap.Execution.Executor
import TinyOlap.Library.Decimal
import TinyOlap.Library.Extremum

/-!
# Accumulators

An accumulator keeps one slot for each group. In the first phase it takes the values of
its column (`update`), in the second the slots of other accumulators, which travel as a
column of their own (`merge`). Where there is only one group, most accumulators take the
whole column at once instead of one value after the other.
-/

set_option autoImplicit false

namespace TinyOlap.Execution

open Library Catalog Arrow

/-! ## Numeric types -/

/-- The types whose values can be added and compared. -/
inductive NumericType where
  | int (t : IntType)
  | f32
  | f64
deriving DecidableEq, Repr

namespace NumericType

/-- The column type. -/
@[reducible] def dataType : NumericType → DataType
  | int t => .int t
  | f32 => .f32
  | f64 => .f64

@[reducible] def Native (t : NumericType) : Type := t.dataType.Native

/-- `T::Native::default()`. -/
def zero : (t : NumericType) → t.Native
  | int t => MachineInt.wrap t.signed t.top 0
  | f32 => Ieee.make 8 23 false 0
  | f64 => Ieee.make 11 52 false 0

/-- The type of a running sum: the widest of the family. -/
@[reducible] def widened : NumericType → NumericType
  | int t => int (if t.signed then .i64 else .u64)
  | f32 | f64 => f64

/-- `v.into()`: the value in the wider type. -/
def widen : (t : NumericType) → t.Native → t.widened.Native
  | int _, v => MachineInt.wrap _ _ v.val
  | f32, v => Ieee.convert 11 52 v
  | f64, v => v

/-- `+`: integers wrap. -/
def add : (t : NumericType) → t.Native → t.Native → t.Native
  | int _, a, b => MachineInt.wrap _ _ (a.val + b.val)
  | f32, a, b => Ieee.add a b
  | f64, a, b => Ieee.add a b

/-- `<`. -/
def lt : (t : NumericType) → t.Native → t.Native → Bool
  | int _, a, b => decide (a.val < b.val)
  | f32, a, b => Ieee.ieeeLt a b
  | f64, a, b => Ieee.ieeeLt a b

/-- The order of the aggregation kernels, which is total. -/
def key : (t : NumericType) → t.Native → Int
  | int _, v => v.val
  | f32, v => v.totalKey
  | f64, v => v.totalKey

end NumericType

/-! ## Slots -/

/-- `resize`, which never shrinks. -/
def grow {α : Type} (slots : List α) (numGroups : Nat) (default : α) : List α :=
  slots ++ List.replicate (numGroups - slots.length) default

/-- Change the slot at an index; out of range is a panic. -/
def modifyAt {α : Type} (slots : List α) (idx : Nat) (f : α → α) : Option (List α) :=
  slots[idx]?.map fun slot => slots.set idx (f slot)

/-- Give every value to the slot of its row's group, row by row. -/
def scatter {α β : Type} (f : α → β → α) (slots : List α) (groupIndices : List Nat)
    (values : List β) : Option (List α) :=
  (groupIndices.zip values).foldlM (fun slots entry => modifyAt slots entry.1 (f · entry.2)) slots

/-- The slots of a minimum or a maximum: a value for each group, and whether there is
one yet. -/
structure Extrema (t : NumericType) where
  hasValue : List Bool
  running : List t.Native

namespace Extrema

variable {t : NumericType}

def ensureCapacity (s : Extrema t) (numGroups : Nat) : Extrema t :=
  if s.hasValue.length < numGroups then
    ⟨grow s.hasValue numGroups false, grow s.running numGroups t.zero⟩
  else s

/-- Take a value that is the first of its group, or better than the one before. -/
def take (better : t.Native → t.Native → Bool) (s : Extrema t) (gi : Nat) (value : t.Native) :
    Option (Extrema t) :=
  match s.hasValue[gi]?, s.running[gi]? with
  | some true, some best =>
      some (if better value best then { s with running := s.running.set gi value } else s)
  | some false, some _ => some ⟨s.hasValue.set gi true, s.running.set gi value⟩
  | _, _ => none

/-- `aggregate::min` or `aggregate::max`: the best value, if there is any. -/
def bestOf (kernel : t.Native → t.Native → Bool) (values : List t.Native) : Option t.Native :=
  values.foldl (track kernel) none

/-- The body that minimum and maximum share, in both phases. -/
def absorb (kernel better : t.Native → t.Native → Bool) (s : Extrema t) (values : List t.Native)
    (groupIndices : List Nat) (numGroups : Nat) : Option (Extrema t) :=
  if numGroups = 1 then
    match bestOf kernel values with
    | some candidate => s.take better 0 candidate
    | none => some s
  else (groupIndices.zip values).foldlM (fun s entry => s.take better entry.1 entry.2) s

end Extrema

/-! ## Accumulators -/

inductive Accumulator where
  | count (columnName : String) (counts : List U64)
  | sum (t : NumericType) (columnName : String) (runningSums : List t.widened.Native)
  | min (t : NumericType) (columnName : String) (slots : Extrema t)
  | max (t : NumericType) (columnName : String) (slots : Extrema t)
  /-- Sums and counts. A partial accumulator hands on both. -/
  | avg (columnName : String) (slots : List (F64 × U64)) (isPartial : Bool)

namespace Accumulator

abbrev zeroU64 : U64 := MachineInt.wrap false 63 0

/-- `+` on `u64`. -/
def addU64 (a b : U64) : U64 := MachineInt.wrap false 63 (a.val + b.val)

def zeroAvg : F64 × U64 := (Ieee.make 11 52 false 0, zeroU64)

/-- `ensure_capacity`. -/
def ensureCapacity (numGroups : Nat) : Accumulator → Accumulator
  | count c counts => count c (grow counts numGroups zeroU64)
  | sum t c sums => sum t c (grow sums numGroups t.widened.zero)
  | min t c slots => min t c (slots.ensureCapacity numGroups)
  | max t c slots => max t c (slots.ensureCapacity numGroups)
  | avg c slots isPartial => avg c (grow slots numGroups zeroAvg) isPartial

/-- `output_field`. -/
def outputField : Accumulator → Field
  | count c _ => ⟨"count(" ++ c ++ ")", .data (.int .u64)⟩
  | sum t c _ => ⟨"sum(" ++ c ++ ")", .data t.widened.dataType⟩
  | min t c _ => ⟨"min(" ++ c ++ ")", .data t.dataType⟩
  | max t c _ => ⟨"max(" ++ c ++ ")", .data t.dataType⟩
  | avg c _ isPartial =>
      ⟨"avg(" ++ c ++ ")", if isPartial then .sumCount else .data .f64⟩

/-- `cast` to `Float64`. A text that is no number becomes a null, whose value is zero. -/
def castToF64 (array : ArrayRef) : Option (List F64) :=
  match array with
  | ⟨.data (.int _), values⟩ => some (values.map fun v => Ieee.ofInt 11 52 v.val)
  | ⟨.data .f32, values⟩ => some (values.map (Ieee.convert 11 52))
  | ⟨.data .f64, values⟩ => some values
  | ⟨.data .bool, values⟩ => some (values.map fun b => Ieee.ofInt 11 52 b.toInt)
  | ⟨.data .str, values⟩ => some (values.map fun s =>
      (Decimal.parseFloat 11 52 s).getD (Ieee.make 11 52 false 0))
  | ⟨.sumCount, _⟩ => none

/-- The values of a column of the type the accumulator was built for. -/
def values (t : ArrowType) (columnRef : ArrayRef) : ExecResult (List t.Native) :=
  .orPanic (columnRef.downcast t)

/-- `update`: take the values of the column. -/
def update (batch : RecordBatch) (groupIndices : List Nat) (numGroups : Nat)
    (acc : Accumulator) : ExecResult Accumulator :=
  match acc.ensureCapacity numGroups with
  | count c counts => do
      let counts ← .orPanic (
        if numGroups = 1 then
          modifyAt counts 0 fun n => addU64 n (MachineInt.wrap false 63 groupIndices.length)
        else
          scatter (fun n _ => addU64 n (MachineInt.wrap false 63 1)) counts groupIndices
            groupIndices)
      .ok (count c counts)
  | sum t c sums => do
      let columnRef ← .ofOption (.invalidData ("SumAccumulator: column '" ++ c ++
        "' not found in batch")) (batch.columnByName c)
      let arr ← values (.data t.dataType) columnRef
      let sums ← .orPanic (
        if numGroups = 1 then
          let acc := arr.foldl (fun acc v => t.widened.add acc (t.widen v)) t.widened.zero
          modifyAt sums 0 fun s => t.widened.add s acc
        else scatter (fun s v => t.widened.add s (t.widen v)) sums groupIndices arr)
      .ok (sum t c sums)
  | min t c slots => do
      let columnRef ← .ofOption (.invalidData ("MinAccumulator: column '" ++ c ++
        "' not found in batch")) (batch.columnByName c)
      let arr ← values (.data t.dataType) columnRef
      let slots ← .orPanic (slots.absorb (fun a b => decide (t.key a < t.key b)) t.lt arr
        groupIndices numGroups)
      .ok (min t c slots)
  | max t c slots => do
      let columnRef ← .ofOption (.invalidData ("MaxAccumulator: column '" ++ c ++
        "' not found in batch")) (batch.columnByName c)
      let arr ← values (.data t.dataType) columnRef
      let slots ← .orPanic (slots.absorb (fun a b => decide (t.key b < t.key a))
        (fun a b => t.lt b a) arr groupIndices numGroups)
      .ok (max t c slots)
  | avg c slots isPartial => do
      let columnRef ← .ofOption (.invalidData ("AvgAccumulator: column '" ++ c ++
        "' not found in batch")) (batch.columnByName c)
      let arr ← .ofOption (.invalidData "AvgAccumulator: cast failed") (castToF64 columnRef)
      let slots ← .orPanic (scatter (fun (slot : F64 × U64) v =>
        (Ieee.add slot.1 v, addU64 slot.2 (MachineInt.wrap false 63 1))) slots groupIndices arr)
      .ok (avg c slots isPartial)

/-- `merge`: take the slots of other accumulators, found under the name of the own output. -/
def merge (batch : RecordBatch) (groupIndices : List Nat) (numGroups : Nat)
    (acc : Accumulator) : ExecResult Accumulator :=
  let colname := acc.outputField.name
  let column : ExecResult ArrayRef :=
    .ofOption (.invalidData colname) (batch.columnByName colname)
  match acc.ensureCapacity numGroups with
  | count c counts => do
      let columnRef ← column
      let arr ← values (.data (.int .u64)) columnRef
      let counts ← .orPanic (scatter addU64 counts groupIndices arr)
      .ok (count c counts)
  | sum t c sums => do
      let columnRef ← column
      let arr ← values (.data t.widened.dataType) columnRef
      let sums ← .orPanic (scatter t.widened.add sums groupIndices arr)
      .ok (sum t c sums)
  | min t c slots => do
      let columnRef ← column
      let arr ← values (.data t.dataType) columnRef
      let slots ← .orPanic (slots.absorb (fun a b => decide (t.key a < t.key b)) t.lt arr
        groupIndices numGroups)
      .ok (min t c slots)
  | max t c slots => do
      let columnRef ← column
      let arr ← values (.data t.dataType) columnRef
      let slots ← .orPanic (slots.absorb (fun a b => decide (t.key b < t.key a))
        (fun a b => t.lt b a) arr groupIndices numGroups)
      .ok (max t c slots)
  | avg c slots isPartial => do
      let columnRef ← .orPanic (batch.columnByName colname)
      let arr ← values .sumCount columnRef
      let slots ← .orPanic (scatter (fun (slot other : F64 × U64) =>
        (Ieee.add slot.1 other.1, addU64 slot.2 other.2)) slots groupIndices arr)
      .ok (avg c slots isPartial)

/-- `materialize`: the slots as an array. -/
def materialize : Accumulator → ArrayRef
  | count _ counts => ⟨.data (.int .u64), counts⟩
  | sum t _ sums => ⟨.data t.widened.dataType, sums⟩
  | min t _ slots => ⟨.data t.dataType, slots.running⟩
  | max t _ slots => ⟨.data t.dataType, slots.running⟩
  | avg _ slots true => ⟨.sumCount, slots⟩
  | avg _ slots false =>
      ⟨.data .f64, slots.map fun slot => Ieee.div slot.1 (Ieee.ofInt 11 52 slot.2.val)⟩

/-- What `materialize` leaves behind. -/
def emptied : Accumulator → Accumulator
  | count c _ => count c []
  | sum t c _ => sum t c []
  | min t c slots => min t c { slots with running := [] }
  | max t c slots => max t c { slots with running := [] }
  | avg c _ isPartial => avg c [] isPartial

end Accumulator

end TinyOlap.Execution
