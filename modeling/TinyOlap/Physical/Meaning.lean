import TinyOlap.Encoding.StringCodec
import TinyOlap.Physical.Operators

/-!
# What a predicate says

This is not code but the yardstick for it: a predicate is read over one row, as
ordinary Boolean logic over comparisons. Integers of any two types are compared as
integers, and other values only with values of their type: floats in the total order
of their bit patterns, strings in the order of their bytes. A comparison of values
that are not comparable, or with a column the row does not have, does not hold.
-/

set_option autoImplicit false

namespace TinyOlap.Physical

open Library Catalog Arrow Encoding

/-- The order of integers. -/
def cmpInt (a b : Int) : Ordering := if a < b then .lt else if a = b then .eq else .gt

/-- The lexicographic order of bytes. -/
def cmpBytes : Bytes → Bytes → Ordering
  | [], [] => .eq
  | [], _ :: _ => .lt
  | _ :: _, [] => .gt
  | a :: as, b :: bs => if a < b then .lt else if b < a then .gt else cmpBytes as bs

/-- The order of the values of a type. -/
def cmpNative : (t : DataType) → t.Native → t.Native → Ordering
  | .int _, a, b => cmpInt a.val b.val
  | .f32, a, b => cmpInt a.totalKey b.totalKey
  | .f64, a, b => cmpInt a.totalKey b.totalKey
  | .bool, a, b => cmpInt a.toInt b.toInt
  | .str, a, b => cmpBytes (utf8 a) (utf8 b)

/-- The order of two values, if they are comparable. -/
def cmpValue : Value → Value → Option Ordering
  | ⟨.data (.int _), a⟩, ⟨.data (.int _), b⟩ => some (cmpInt a.val b.val)
  | ⟨.data .f32, a⟩, ⟨.data .f32, b⟩ => some (cmpNative .f32 a b)
  | ⟨.data .f64, a⟩, ⟨.data .f64, b⟩ => some (cmpNative .f64 a b)
  | ⟨.data .bool, a⟩, ⟨.data .bool, b⟩ => some (cmpNative .bool a b)
  | ⟨.data .str, a⟩, ⟨.data .str, b⟩ => some (cmpNative .str a b)
  | _, _ => none

/-- Whether an operator accepts an order. -/
def CmpOp.test : CmpOp → Ordering → Bool
  | eq, o => o == .eq
  | notEq, o => o != .eq
  | lt, o => o == .lt
  | ltEq, o => o != .gt
  | gt, o => o == .gt
  | gtEq, o => o != .lt

/-- A row with the names of its columns. -/
abbrev NamedRow : Type := List (String × Value)

/-- The value of an operand in a row. -/
def operand (row : NamedRow) : PhysicalExpr → Option Value
  | .column name => row.lookup name
  | .literal (.value t v) => some ⟨.data t, v⟩
  | _ => none

/-- **Whether a predicate holds of a row.** -/
def holds (row : NamedRow) : PhysicalExpr → Bool
  | .compare left op right =>
      match operand row left, operand row right with
      | some a, some b => (cmpValue a b).any op.test
      | _, _ => false
  | .logical left .and right => holds row left && holds row right
  | .logical left .or right => holds row left || holds row right
  | .column name => row.lookup name == some ⟨.data .bool, true⟩
  | .literal lit => lit = .bool true

theorem cmpValue_same {t : DataType} (a b : t.Native) :
    cmpValue ⟨.data t, a⟩ ⟨.data t, b⟩ = some (cmpNative t a b) := by
  match t with
  | .int _ => rfl
  | .f32 => rfl
  | .f64 => rfl
  | .bool => rfl
  | .str => rfl

/-- The comparison of integers that an operator stands for. -/
theorem test_cmpInt (op : CmpOp) (a b : Int) :
    op.test (cmpInt a b) = true ↔
      match op with
      | .eq => a = b
      | .notEq => a ≠ b
      | .lt => a < b
      | .ltEq => a ≤ b
      | .gt => b < a
      | .gtEq => b ≤ a := by
  unfold cmpInt
  by_cases less : a < b
  · cases op <;> simp [CmpOp.test, less] <;> omega
  · by_cases same : a = b
    · cases op <;> simp [CmpOp.test, same]
    · cases op <;> simp [CmpOp.test, less, same] <;> omega

end TinyOlap.Physical
