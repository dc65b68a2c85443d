import TinyOlap.Frontend.Analyzer
import TinyOlap.Logical.Lower
import TinyOlap.Logical.Optimizer
import TinyOlap.Physical.Lower

/-!
# Which literals reach the executor

Three stages judge a literal that is compared with a column. The analyzer checks it
against the type of the column, the lowering reads a number as a 64-bit integer or else as
a float, and the cast around it is lowered to a literal of the column's type. The last
stage panics on what it does not expect, and relies on the first to have rejected it.
-/

set_option autoImplicit false

namespace TinyOlap.Physical

open Library Catalog Frontend
open Logical (coerceComparison)

/-- The value of a type is the one that a literal writes. A float is the nearest one. -/
def Writes : (t : DataType) → SqlValue → t.Native → Prop
  | .int _, .number text => fun x => Decimal.integer text = some x.val
  | .f32, .number _ => fun _ => True
  | .f64, .number _ => fun _ => True
  | .bool, .boolean b => fun x => x = b
  | .str, .singleQuotedString text => fun x => x = text
  | _, _ => fun _ => False

/-- A literal of the kind of a type. An integer is not above the greatest signed one. -/
def Suits : DataType → SqlValue → Prop
  | .int _, .number text => ∃ n, Decimal.integer text = some n ∧ n ≤ maxVal true 63
  | .f32, .number _ | .f64, .number _ => True
  | .bool, .boolean _ => True
  | .str, .singleQuotedString _ => True
  | _, _ => False

/-- An integer literal of an integer column is in the range of the column. -/
theorem checkTypeCompat_int {t : IntType} {text : String}
    (compatible : checkTypeCompat (.int t) (.number text) = .ok ()) :
    ∃ n, Decimal.integer text = some n ∧ minVal t.signed t.top ≤ n ∧ n ≤ maxVal t.signed t.top := by
  simp only [checkTypeCompat] at compatible
  split at compatible
  · cases compatible
  · rename_i n read
    split at compatible
    · cases compatible
    · rename_i range
      rw [not_or, not_lt, not_lt] at range
      exact ⟨n.val, Decimal.parseInt_signed.mp read, range.1, range.2⟩

/-- The least integer of every type is a signed 64-bit integer. -/
theorem minVal_le (t : IntType) : minVal true 63 ≤ minVal t.signed t.top := by
  cases t <;> decide

/-- What a number becomes: an integer if it is a signed 64-bit one, else a float. -/
theorem lowerLiteral_number {text : String} {lit : Logical.LiteralValue}
    (lowered : Logical.lowerLiteral (.number text) = .ok lit) :
    (∃ i : I64, lit = .int i ∧ Decimal.integer text = some i.val) ∨
    (∃ f, lit = .float f ∧
      ∀ n, Decimal.integer text = some n → ¬ (minVal true 63 ≤ n ∧ n ≤ maxVal true 63)) := by
  simp only [Logical.lowerLiteral] at lowered
  split at lowered
  · rename_i i read
    cases lowered
    exact .inl ⟨i, rfl, Decimal.parseInt_signed.mp read⟩
  · rename_i unread
    split at lowered
    · rename_i f _
      cases lowered
      exact .inr ⟨f, rfl, Decimal.parseInt_signed_eq_none.mp unread⟩
    · cases lowered

/-- An accepted number is narrowed to an integer column unless it became a float. -/
theorem narrowLiteral_int_iff {t : IntType} {text : String} {lit : Logical.LiteralValue}
    (compatible : checkTypeCompat (.int t) (.number text) = .ok ())
    (lowered : Logical.lowerLiteral (.number text) = .ok lit) :
    (∃ x, Writes (.int t) (.number text) x ∧ narrowLiteral lit (.int t) = .ok (.value (.int t) x)) ↔
      Suits (.int t) (.number text) := by
  obtain ⟨n, stands, lower, upper⟩ := checkTypeCompat_int compatible
  rcases lowerLiteral_number lowered with ⟨i, rfl, same⟩ | ⟨f, rfl, out⟩
  · obtain rfl : n = i.val := Option.some.inj (stands.symm.trans same)
    constructor
    · intro _
      exact ⟨i.val, same, i.upper⟩
    · intro _
      refine ⟨⟨i.val, lower, upper⟩, same, ?_⟩
      have narrowed : MachineInt.ofInt? t.signed t.top i.val = some ⟨i.val, lower, upper⟩ :=
        MachineInt.ofInt?_eq_some.mpr rfl
      rw [narrowLiteral, narrowed]
      rfl
  · constructor
    · rintro ⟨x, _, narrowed⟩
      cases narrowed
    · rintro ⟨m, same, small⟩
      obtain rfl : n = m := Option.some.inj (stands.symm.trans same)
      exact (out n stands ⟨(minVal_le t).trans lower, small⟩).elim

/-- An accepted number is narrowed to a float column. -/
theorem narrowLiteral_float {text : String} {lit : Logical.LiteralValue}
    (lowered : Logical.lowerLiteral (.number text) = .ok lit) :
    (∃ x, narrowLiteral lit .f32 = .ok (.value .f32 x)) ∧
      ∃ x, narrowLiteral lit .f64 = .ok (.value .f64 x) := by
  rcases lowerLiteral_number lowered with ⟨i, rfl, _⟩ | ⟨f, rfl, _⟩
  · exact ⟨⟨_, rfl⟩, _, rfl⟩
  · exact ⟨⟨_, rfl⟩, _, rfl⟩

/-- A literal of one kind is only narrowed to the type of that kind. -/
theorem narrowLiteral_other {t : DataType} {v : SqlValue} {lit : Logical.LiteralValue}
    (notNumber : ∀ text, v ≠ .number text) (lowered : Logical.lowerLiteral v = .ok lit) :
    (∃ x, Writes t v x ∧ narrowLiteral lit t = .ok (.value t x)) ↔ Suits t v := by
  cases v with
  | number text => exact (notNumber text rfl).elim
  | singleQuotedString text =>
      cases lowered
      rcases t with (_ | _ | _ | _) | _ <;> simp [Writes, Suits, narrowLiteral]
  | boolean b =>
      cases lowered
      rcases t with (_ | _ | _ | _) | _ <;> simp [Writes, Suits, narrowLiteral]
  | null =>
      cases lowered
      rcases t with (_ | _ | _ | _) | _ <;> simp [Writes, Suits]
  | other debug => cases lowered

/-- **Which accepted literals are narrowed** to the type of the column, to the value they
write. -/
theorem narrowLiteral_iff {t : DataType} {v : SqlValue} {lit : Logical.LiteralValue}
    (compatible : checkTypeCompat t v = .ok ()) (lowered : Logical.lowerLiteral v = .ok lit) :
    (∃ x, Writes t v x ∧ narrowLiteral lit t = .ok (.value t x)) ↔ Suits t v := by
  cases v with
  | number text =>
      obtain ⟨⟨x, narrow32⟩, y, narrow64⟩ := narrowLiteral_float lowered
      rcases t with (t | _ | _ | _) | _
      · exact narrowLiteral_int_iff compatible lowered
      · exact ⟨fun _ => trivial, fun _ => ⟨x, trivial, narrow32⟩⟩
      · exact ⟨fun _ => trivial, fun _ => ⟨y, trivial, narrow64⟩⟩
      · cases compatible
      · cases compatible
  | singleQuotedString text => exact narrowLiteral_other (fun _ => nofun) lowered
  | boolean b => exact narrowLiteral_other (fun _ => nofun) lowered
  | null => exact narrowLiteral_other (fun _ => nofun) lowered
  | other debug => cases lowered

/-! ## Comparisons with a column -/

theorem lowerOp_right_inj {left right right' : PhysicalExpr} {op : Logical.BinaryOp}
    (same : lowerOp left op right = lowerOp left op right') : right = right' := by
  cases op <;> injection same

/-- A literal that is compared with a column is cast to the column's type, on either side,
and the cast is lowered by narrowing the literal. -/
theorem lowerExpr_coerceComparison {schema : TableSchema} {c : ColumnSchema}
    (found : schema.find c.name = some c) (table : String) (op : Logical.BinaryOp)
    (lit : Logical.LiteralValue) :
    (coerceComparison (.column table c.name) op (.literal lit) schema >>= lowerExpr) =
      (do
        let narrowed ← narrowLiteral lit c.dataType
        .ok (lowerOp (.column c.name) op (.literal narrowed))) ∧
    (coerceComparison (.literal lit) op (.column table c.name) schema >>= lowerExpr) =
      (do
        let narrowed ← narrowLiteral lit c.dataType
        .ok (lowerOp (.literal narrowed) op (.column c.name))) := by
  have target : Logical.targetType schema c.name = .ok c.dataType := by
    rw [Logical.targetType, found]
    rfl
  constructor
  · simp only [coerceComparison, target, Outcome.ok_bind, lowerExpr]
    cases narrowLiteral lit c.dataType <;> rfl
  · simp only [coerceComparison, target, Outcome.ok_bind, lowerExpr]
    cases narrowLiteral lit c.dataType <;> rfl

/-- **When the analyzer and the lowering agree on a literal.** The literal is one that the
analyzer and the lowering of literals accept. Its comparison with the column is lowered
without a panic, to a comparison with a literal of the column's type and of the written
value, on either side, if and only if the literal is of the kind of the column, and not
above the greatest signed 64-bit integer where the column has integers. -/
theorem coerced_literal_iff {schema : TableSchema} {c : ColumnSchema}
    (found : schema.find c.name = some c) {v : SqlValue} {lit : Logical.LiteralValue}
    (compatible : checkTypeCompat c.dataType v = .ok ())
    (lowered : Logical.lowerLiteral v = .ok lit) (table : String) (op : Logical.BinaryOp) :
    (∃ x, Writes c.dataType v x ∧
      (coerceComparison (.column table c.name) op (.literal lit) schema >>= lowerExpr) =
        .ok (lowerOp (.column c.name) op (.literal (.value c.dataType x))) ∧
      (coerceComparison (.literal lit) op (.column table c.name) schema >>= lowerExpr) =
        .ok (lowerOp (.literal (.value c.dataType x)) op (.column c.name))) ↔
    Suits c.dataType v := by
  obtain ⟨onRight, onLeft⟩ := lowerExpr_coerceComparison found table op lit
  rw [← narrowLiteral_iff compatible lowered]
  constructor
  · rintro ⟨x, writes, right, _⟩
    rw [onRight] at right
    obtain ⟨narrowed, narrows, equal⟩ := Outcome.bind_eq_ok.mp right
    have same : PhysicalExpr.literal narrowed = .literal (.value c.dataType x) :=
      lowerOp_right_inj (Outcome.ok.inj equal)
    exact ⟨x, writes, PhysicalExpr.literal.inj same ▸ narrows⟩
  · rintro ⟨x, writes, narrows⟩
    refine ⟨x, writes, ?_, ?_⟩
    · rw [onRight, narrows, Outcome.ok_bind]
    · rw [onLeft, narrows, Outcome.ok_bind]

/-- A table with an unsigned column. -/
def countSchema : TableSchema := ⟨"t", [⟨"n", .int .u64⟩]⟩

/-- The least unsigned integer that is no signed one is accepted, becomes a float, and the
cast around it panics. -/
theorem coerced_literal_panics :
    checkTypeCompat (.int .u64) (.number "9223372036854775808") = .ok () ∧
    ∃ lit, Logical.lowerLiteral (.number "9223372036854775808") = .ok lit ∧
      (coerceComparison (.column "t" "n") .eq (.literal lit) countSchema >>= lowerExpr) =
        .panic := by
  refine ⟨by decide +kernel, ?_⟩
  have large : ∃ f, Logical.lowerLiteral (.number "9223372036854775808") = .ok (.float f) :=
    ⟨_, by rfl⟩
  obtain ⟨f, lowered⟩ := large
  exact ⟨_, lowered, rfl⟩

/-- A small number is compared with the unsigned column as it is written. -/
theorem coerced_literal_iff_seven :
    ∃ x : U64, Decimal.integer "7" = some x.val ∧
      (coerceComparison (.column "t" "n") .lt (.literal (.int (MachineInt.wrap true 63 7)))
        countSchema >>= lowerExpr) =
        .ok (.compare (.column "n") .lt (.literal (.value (.int .u64) x))) := by
  obtain ⟨x, writes, right, _⟩ :=
    (@coerced_literal_iff countSchema ⟨"n", .int .u64⟩ rfl (.number "7") _ (by decide) rfl "t"
      .lt).mpr ⟨7, by decide, by decide⟩
  exact ⟨x, writes, right⟩

end TinyOlap.Physical
