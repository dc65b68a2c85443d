import TinyOlap.Physical.WherePredicate

/-!
# What folding does to a predicate

Folding looks at the left operand of an AND or OR only. If the constants of a predicate,
read from the left, fix its value, the fold is that constant (`fold_of_fixedTo`); in every
other case it is an operation, with the operands on the left that were neutral dropped.
A constant on the right stays where it is.

Only 64-bit integers are compared when the plan is made. The literals of larger integers
have become doubles.
-/

set_option autoImplicit false

namespace TinyOlap.Physical

open Library Catalog
open Logical (LogicalExpr)

variable {schema : TableSchema}

/-! ## Integer literals -/

/-- The literal is a signed 64-bit integer. -/
def IntLiteral.Small (l : IntLiteral) : Prop :=
  minVal true 63 ≤ l.value ∧ l.value ≤ maxVal true 63

instance (l : IntLiteral) : Decidable l.Small := inferInstanceAs (Decidable (_ ∧ _))

/-- The literal as a double, which it becomes when it is not small. -/
def IntLiteral.double (l : IntLiteral) : F64 :=
  match l.lit with
  | .float f => f
  | _ => Ieee.ofInt 11 52 l.value

theorem IntLiteral.lit_of_small {l : IntLiteral} (small : l.Small) :
    ∃ i : I64, l.lit = .int i ∧ i.val = l.value := by
  rcases lowerLiteral_number l.lowered with ⟨i, same, stands⟩ | ⟨f, _, out⟩
  · exact ⟨i, same, Option.some.inj (stands.symm.trans l.stands)⟩
  · exact (out l.value l.stands small).elim

theorem IntLiteral.lit_of_large {l : IntLiteral} (large : ¬ l.Small) : l.lit = .float l.double := by
  rcases lowerLiteral_number l.lowered with ⟨i, same, stands⟩ | ⟨f, same, _⟩
  · have value : i.val = l.value := Option.some.inj (stands.symm.trans l.stands)
    exact (large ⟨value ▸ i.lower, value ▸ i.upper⟩).elim
  · rw [IntLiteral.double, same]

/-! ## Constants on the left -/

namespace WherePredicate

/-- The constants of a predicate alone, read from the left, fix its value: an operand on the
left can decide an AND or OR or be neutral, and an operand on the right is only looked at
when the left one is neutral. -/
def FixedTo : WherePredicate schema → Bool → Prop
  | comparison _, _ => False
  | integers left op right, b =>
      left.Small ∧ right.Small ∧ op.test (cmpInt left.value right.value) = b
  | truth c, b => c = b
  | logical left op right, b =>
      (left.FixedTo (!op.neutral) ∧ b = !op.neutral) ∨ (left.FixedTo op.neutral ∧ right.FixedTo b)

/-- The leaves that are left when neutral operands on the left are dropped are all of one
kind. -/
def Remains (kind : WherePredicate schema → Prop) : WherePredicate schema → Prop
  | logical left op right => (left.FixedTo op.neutral ∨ left.Remains kind) ∧ right.Remains kind
  | leaf => kind leaf

/-- A comparison with a column. -/
def ComparesColumn : WherePredicate schema → Prop
  | comparison _ => True
  | _ => False

/-- A comparison of two integers beyond 64 bits. -/
def ComparesLarge : WherePredicate schema → Prop
  | integers left _ right => ¬ left.Small ∧ ¬ right.Small
  | _ => False

/-- Whether the predicate is true when two integers beyond 64 bits are compared as doubles. -/
def holdsRounded (row : NamedRow) : WherePredicate schema → Bool
  | comparison c => c.holds row
  | integers left op right =>
      if ¬ left.Small ∧ ¬ right.Small then op.test (cmpNative .f64 left.double right.double)
      else op.test (cmpInt left.value right.value)
  | truth b => b
  | logical left op right => op.combine (left.holdsRounded row) (right.holdsRounded row)

/-- A fixed predicate has its value on every row. -/
theorem holds_of_fixedTo {w : WherePredicate schema} {b : Bool} (fixed : w.FixedTo b)
    (row : NamedRow) : w.holds row = b ∧ w.holdsRounded row = b := by
  induction w generalizing b with
  | comparison c => exact fixed.elim
  | integers left op right =>
      obtain ⟨small, _, value⟩ := fixed
      exact ⟨value, by rw [holdsRounded, if_neg fun large => large.1 small, value]⟩
  | truth c => exact ⟨fixed, fixed⟩
  | logical left op right ihLeft ihRight =>
      rcases fixed with ⟨decided, rfl⟩ | ⟨neutral, value⟩
      · rw [holds, holdsRounded, (ihLeft decided).1, (ihLeft decided).2]
        exact ⟨op.combine_decided _, op.combine_decided _⟩
      · rw [holds, holdsRounded, (ihLeft neutral).1, (ihLeft neutral).2, op.combine_neutral,
          op.combine_neutral]
        exact ihRight value

theorem fixedTo_inj {w : WherePredicate schema} {b c : Bool} (fixed : w.FixedTo b)
    (fixed' : w.FixedTo c) : b = c :=
  (holds_of_fixedTo fixed []).1.symm.trans (holds_of_fixedTo fixed' []).1

/-- What remains is not fixed, if no leaf of its kind is. -/
theorem not_fixedTo_of_remains {kind : WherePredicate schema → Prop}
    (open' : ∀ w b, kind w → ¬ w.FixedTo b) {w : WherePredicate schema} (remains : w.Remains kind)
    (b : Bool) : ¬ w.FixedTo b := by
  induction w generalizing b with
  | comparison c => exact open' _ b remains
  | integers left op right => exact open' _ b remains
  | truth c => exact open' _ b remains
  | logical left op right ihLeft ihRight =>
      rintro (⟨decided, _⟩ | ⟨_, value⟩)
      · rcases remains.1 with neutral | rest
        · have same := fixedTo_inj decided neutral
          cases op <;> cases same
        · exact ihLeft rest _ decided
      · exact ihRight remains.2 b value

theorem not_fixedTo_of_column {w : WherePredicate schema} (column : w.Remains ComparesColumn)
    (b : Bool) : ¬ w.FixedTo b := by
  apply not_fixedTo_of_remains _ column
  intro w b compares fixed
  cases w with
  | comparison c => exact fixed
  | _ => exact compares

theorem not_fixedTo_of_large {w : WherePredicate schema} (large : w.Remains ComparesLarge)
    (b : Bool) : ¬ w.FixedTo b := by
  apply not_fixedTo_of_remains _ large
  intro w b compares fixed
  cases w with
  | integers left op right => exact compares.1 fixed.1
  | _ => exact compares

/-- An integer comparison has the same value on every row. -/
theorem holds_of_large {w : WherePredicate schema} (large : w.Remains ComparesLarge)
    (row : NamedRow) : w.holds row = w.holds [] ∧ w.holdsRounded row = w.holdsRounded [] := by
  induction w with
  | comparison c => exact large.elim
  | integers left op right => exact ⟨rfl, rfl⟩
  | truth b => exact ⟨rfl, rfl⟩
  | logical left op right ihLeft ihRight =>
      obtain ⟨same, sameRounded⟩ := ihRight large.2
      rw [holds, holdsRounded, same, sameRounded]
      rcases large.1 with neutral | rest
      · obtain ⟨here, hereRounded⟩ := holds_of_fixedTo neutral row
        obtain ⟨empty, emptyRounded⟩ := holds_of_fixedTo neutral []
        exact ⟨by rw [holds, here, empty], by rw [holdsRounded, hereRounded, emptyRounded]⟩
      · exact ⟨by rw [holds, (ihLeft rest).1], by rw [holdsRounded, (ihLeft rest).2]⟩

/-! ## The fold -/

/-- The fold of an AND or OR is decided by the fold of its left operand. -/
theorem fold_logical (op : LogicalOp) (left right : LogicalExpr) :
    (Logical.foldExpr left = .literal (.bool op.neutral) →
      Logical.foldExpr (.binaryOp left op.logical right) = Logical.foldExpr right) ∧
    (Logical.foldExpr left = .literal (.bool !op.neutral) →
      Logical.foldExpr (.binaryOp left op.logical right) = .literal (.bool !op.neutral)) ∧
    (∀ a o b, Logical.foldExpr left = .binaryOp a o b →
      Logical.foldExpr (.binaryOp left op.logical right) =
        .binaryOp (.binaryOp a o b) op.logical (Logical.foldExpr right)) := by
  refine ⟨?_, ?_, ?_⟩
  · intro folded
    cases op <;> simp [Logical.foldExpr, folded, LogicalOp.logical, LogicalOp.neutral]
  · intro folded
    cases op <;> simp [Logical.foldExpr, folded, LogicalOp.logical, LogicalOp.neutral]
  · intro a o b folded
    simp [Logical.foldExpr, folded]

/-- The fold of a comparison of two literals. -/
theorem fold_integers {left right : IntLiteral} {op : CmpOp} :
    (left.Small → right.Small →
      Logical.foldExpr (.binaryOp (.literal left.lit) op.logical (.literal right.lit)) =
        .literal (.bool (op.test (cmpInt left.value right.value)))) ∧
    (¬ (left.Small ∧ right.Small) →
      Logical.foldExpr (.binaryOp (.literal left.lit) op.logical (.literal right.lit)) =
        .binaryOp (.literal left.lit) op.logical (.literal right.lit)) := by
  constructor
  · intro smallLeft smallRight
    obtain ⟨i, litLeft, valueLeft⟩ := left.lit_of_small smallLeft
    obtain ⟨j, litRight, valueRight⟩ := right.lit_of_small smallRight
    have agree : Logical.foldInt i op.logical j = some (op.test (cmpInt i.val j.val)) := by
      have test := test_cmpInt op i.val j.val
      cases op <;> simp only [CmpOp.logical, Logical.foldInt, Option.some.injEq] <;>
        rw [Bool.eq_iff_iff, test, decide_eq_true_iff]
    rw [litLeft, litRight, ← valueLeft, ← valueRight]
    simp only [Logical.foldExpr, agree]
  · intro large
    by_cases smallLeft : left.Small
    · obtain ⟨i, litLeft, _⟩ := left.lit_of_small smallLeft
      rw [litLeft, right.lit_of_large fun smallRight => large ⟨smallLeft, smallRight⟩]
      cases op <;> rfl
    · rw [left.lit_of_large smallLeft]
      cases op <;> rfl

/-- Folding leaves a predicate without constants alone: it is an operation, and so are its
operands. -/
theorem fold_of_plain {w : WherePredicate schema} (plain : w.Plain) :
    Logical.foldExpr w.coerced = w.coerced ∧
      ∃ left op right, w.coerced = .binaryOp left op right := by
  induction w with
  | comparison c => exact ⟨c.fold_coerced, _, _, _, rfl⟩
  | integers left op right => exact plain.elim
  | truth b => exact plain.elim
  | logical left op right ihLeft ihRight =>
      obtain ⟨foldedLeft, a, o, b, operation⟩ := ihLeft plain.1
      obtain ⟨_, _, keep⟩ := fold_logical op left.coerced right.coerced
      refine ⟨?_, _, _, _, rfl⟩
      rw [coerced, keep a o b (foldedLeft.trans operation), (ihRight plain.2).1, operation]

/-- **A fixed predicate folds to its value.** -/
theorem fold_of_fixedTo {w : WherePredicate schema} {b : Bool} (fixed : w.FixedTo b) :
    Logical.foldExpr w.coerced = .literal (.bool b) := by
  induction w generalizing b with
  | comparison c => exact fixed.elim
  | integers left op right =>
      obtain ⟨smallLeft, smallRight, value⟩ := fixed
      rw [coerced, fold_integers.1 smallLeft smallRight, value]
  | truth c => exact congrArg (fun b => LogicalExpr.literal (.bool b)) fixed
  | logical left op right ihLeft ihRight =>
      obtain ⟨drop, decide', _⟩ := fold_logical op left.coerced right.coerced
      rcases fixed with ⟨decided, rfl⟩ | ⟨neutral, value⟩
      · exact decide' (ihLeft decided)
      · exact (drop (ihLeft neutral)).trans (ihRight value)

end WherePredicate

end TinyOlap.Physical
