import TinyOlap.Library.Refines
import TinyOlap.Logical.Meaning
import TinyOlap.Logical.Optimizer
import TinyOlap.Physical.Lower

/-!
# The logical optimizer keeps the meaning of a plan

Each rule changes single nodes, and the meaning of a plan is put together from the meanings
of its nodes. So it is enough that a rule keeps the meaning of the node it changes
(`rewrite_refines`). Coercion does, because it casts a literal to the type that it has next
to its column anyway; folding does, because a constant that it drops is neutral, and because
what it decides does not depend on the other operand.

Folding also rewrites projections, which are the names of the columns above them. What can
be looked up is never folded away, so a row may only gain names (`Extends`).
-/

set_option autoImplicit false

namespace TinyOlap.Logical

open Library Catalog Frontend
open Interpretation (Row)

variable (I : Interpretation)

/-! ## Rows with the same values -/

/-- An expression that is looked up in a row. -/
def LogicalExpr.IsName : LogicalExpr → Prop
  | .column .. | .aggregate .. => True
  | _ => False

/-- The values are the same, and all that can be looked up in the first row can be looked up
in the second. -/
structure Extends (row row' : Row) : Prop where
  lookup : ∀ (e : LogicalExpr) d, e.IsName → row.lookup e = some d → row'.lookup e = some d
  values : row'.map Prod.snd = row.map Prod.snd

theorem Extends.refl (row : Row) : Extends row row := ⟨fun _ _ _ => id, rfl⟩

theorem Extends.trans {row row' row'' : Row} (first : Extends row row')
    (second : Extends row' row'') : Extends row row'' :=
  ⟨fun e d name found => second.lookup e d name (first.lookup e d name found),
    second.values.trans first.values⟩

theorem extends_refl (rows : List Row) : List.Forall₂ Extends rows rows :=
  List.forall₂_same.mpr fun row _ => Extends.refl row

theorem extends_trans (first second third : List Row) (left : List.Forall₂ Extends first second)
    (right : List.Forall₂ Extends second third) : List.Forall₂ Extends first third :=
  forall₂_trans left right fun _ _ _ => Extends.trans

theorem values_of_extends {rows rows' : List Row} (both : List.Forall₂ Extends rows rows') :
    values rows' = values rows := by
  induction both with
  | nil => rfl
  | cons here _ ih =>
      rw [values, List.map_cons, here.values]
      exact congrArg (List.cons _) ih

/-! ## Every part is monotone -/

theorem eval_mono {row row' : Row} (wider : Extends row row') (e : LogicalExpr) :
    Refines Eq (I.eval row e) (I.eval row' e) := by
  induction e with
  | column table col =>
      intro d found
      exact ⟨d, wider.lookup _ d trivial found, rfl⟩
  | aggregate func arg =>
      intro d found
      exact ⟨d, wider.lookup _ d trivial found, rfl⟩
  | literal lit => exact Refines.some rfl
  | binaryOp left op right ihLeft ihRight =>
      refine Refines.bind ihLeft fun a a' _ same => ?_
      refine Refines.bind ihRight fun b b' _ same' => ?_
      subst same same'
      exact fun d defined => ⟨d, defined, rfl⟩
  | cast expr target ih =>
      refine Refines.bind ih fun a a' _ same => ?_
      subst same
      exact fun d defined => ⟨d, defined, rfl⟩

theorem filterRows_mono {rows rows' : List Row} {p p' : LogicalExpr}
    (wider : List.Forall₂ Extends rows rows')
    (predicates : ∀ row ∈ rows, ∀ row', Extends row row' →
      Refines Eq (I.eval row p) (I.eval row' p')) :
    Refines (List.Forall₂ Extends) (I.filterRows p rows) (I.filterRows p' rows') := by
  have tested := @Refines.mapM _ _ (Row × Bool) (Row × Bool) Extends
    (fun entry entry' => Extends entry.1 entry'.1 ∧ entry.2 = entry'.2) rows rows'
    (fun row => do
      let d ← I.eval row p
      let b ← d.asBool
      some (row, b))
    (fun row => do
      let d ← I.eval row p'
      let b ← d.asBool
      some (row, b)) wider ?_
  · refine Refines.bind tested fun entries entries' _ both => ?_
    have kept := forall₂_filter both fun _ _ same => same.2
    exact Refines.some (List.forall₂_map_left_iff.mpr
      (List.forall₂_map_right_iff.mpr (kept.imp fun _ _ same => same.1)))
  · intro row member row' extends'
    refine Refines.bind (predicates row member row' extends') fun d d' _ same => ?_
    subst same
    intro entry defined
    obtain ⟨b, here, defined⟩ := Option.bind_eq_some_iff.mp defined
    cases defined
    refine ⟨(row', b), ?_, extends', rfl⟩
    rw [here]
    rfl

theorem aggregateCell_mono {group group' : List Row} (wider : List.Forall₂ Extends group group')
    (e : LogicalExpr) : Refines Eq (I.aggregateCell group e) (I.aggregateCell group' e) := by
  cases e with
  | aggregate func arg =>
      refine Refines.bind (Refines.mapM wider fun row _ row' extends' => eval_mono I extends' arg)
        fun a a' _ same => ?_
      rw [List.forall₂_eq_eq_eq] at same
      subst same
      exact fun d defined => ⟨d, defined, rfl⟩
  | _ => exact Refines.none _

/-- Groups are formed by values, so they are the same groups. -/
theorem aggregateRows_mono {rows rows' : List Row} (groupBy aggregates : List LogicalExpr)
    (wider : List.Forall₂ Extends rows rows') :
    Refines (List.Forall₂ Extends) (I.aggregateRows groupBy aggregates rows)
      (I.aggregateRows groupBy aggregates rows') := by
  have keyed := @Refines.mapM _ _ (List Datum × Row) (List Datum × Row) Extends
    (fun entry entry' => entry.1 = entry'.1 ∧ Extends entry.2 entry'.2) rows rows'
    (fun row => (groupBy.mapM (I.eval row)).map fun key => (key, row))
    (fun row => (groupBy.mapM (I.eval row)).map fun key => (key, row)) wider
    fun row _ row' extends' => Refines.map
      (Refines.mapM_eq fun e _ => eval_mono I extends' e)
      fun key key' same => ⟨same, extends'⟩
  refine Refines.bind keyed fun entries entries' _ both => ?_
  have keys : entries.map Prod.fst = entries'.map Prod.fst := by
    rw [← List.forall₂_eq_eq_eq, List.forall₂_map_left_iff, List.forall₂_map_right_iff]
    exact both.imp fun _ _ same => same.1
  have groups : ∀ key : List Datum, List.Forall₂ Extends
      ((entries.filter fun entry => entry.1 = key).map Prod.snd)
      ((entries'.filter fun entry => entry.1 = key).map Prod.snd) := by
    intro key
    rw [List.forall₂_map_left_iff, List.forall₂_map_right_iff]
    refine (forall₂_filter both fun entry entry' same => ?_).imp fun _ _ same => same.2
    rw [same.1]
  rw [← keys]
  refine Refines.mapM_same fun key _ => ?_
  refine Refines.bind (Refines.mapM_eq fun e _ => aggregateCell_mono I (groups key) e)
    fun a a' _ same => ?_
  subst same
  exact Refines.some (Extends.refl _)

/-! ## Rewriting a plan -/

section Plans

variable {schema : TableSchema} (table : Table schema)

/-- The second plan has the rows of the first one wherever that is defined. -/
def PlanRefines (plan plan' : LogicalPlan) : Prop :=
  Refines (List.Forall₂ Extends) (I.meaning table plan) (I.meaning table plan')

variable {I table}

theorem PlanRefines.refl (plan : LogicalPlan) : PlanRefines I table plan plan :=
  fun rows defined => ⟨rows, defined, extends_refl rows⟩

theorem PlanRefines.trans {plan plan' plan'' : LogicalPlan} (first : PlanRefines I table plan plan')
    (second : PlanRefines I table plan' plan'') : PlanRefines I table plan plan'' :=
  Refines.trans extends_trans first second

theorem PlanRefines.filter {input input' : LogicalPlan} (inputs : PlanRefines I table input input')
    (p : LogicalExpr) : PlanRefines I table (.filter p input) (.filter p input') :=
  Refines.bind inputs fun _ _ _ both =>
    filterRows_mono I both fun _ _ _ extends' => eval_mono I extends' p

theorem PlanRefines.project {input input' : LogicalPlan} (inputs : PlanRefines I table input input')
    (projections : List LogicalExpr) :
    PlanRefines I table (.project projections input) (.project projections input') :=
  Refines.bind inputs fun _ _ _ both => by
    refine (Refines.mapM both fun row _ row' extends' => Refines.mapM_eq fun e _ =>
      Refines.map (eval_mono I extends' e) fun d d' same => congrArg (e, ·) same).mono ?_
    exact fun rows rows' same => same.imp fun row row' equal => equal ▸ Extends.refl row

theorem PlanRefines.aggregate {input input' : LogicalPlan}
    (inputs : PlanRefines I table input input') (groupBy aggregates : List LogicalExpr) :
    PlanRefines I table (.aggregate groupBy aggregates input)
      (.aggregate groupBy aggregates input') :=
  Refines.bind inputs fun _ _ _ both => aggregateRows_mono I groupBy aggregates both

theorem PlanRefines.limit {input input' : LogicalPlan} (inputs : PlanRefines I table input input')
    (n : Nat) : PlanRefines I table (.limit n input) (.limit n input') :=
  Refines.bind inputs fun _ _ _ both => Refines.some (List.forall₂_take n both)

/-- All predicates of filters have the property. -/
def LogicalPlan.Predicates (q : LogicalExpr → Prop) : LogicalPlan → Prop
  | .scan _ => True
  | .filter p input => q p ∧ input.Predicates q
  | .project _ input | .aggregate _ _ input | .limit _ input => input.Predicates q

/-- **A rule that keeps the meaning of every node keeps the meaning of the plan.** -/
theorem rewrite_refines {q : LogicalExpr → Prop} {f : LogicalPlan → TextResult LogicalPlan}
    (node : ∀ plan, (∀ p input, plan = .filter p input → q p) →
      ∃ plan', f plan = .ok plan' ∧ PlanRefines I table plan plan')
    {plan : LogicalPlan} (predicates : plan.Predicates q) :
    ∃ plan', rewrite plan f = .ok plan' ∧ PlanRefines I table plan plan' := by
  induction plan with
  | scan name => exact node (.scan name) nofun
  | filter p input ih =>
      obtain ⟨input', rewritten, inputs⟩ := ih predicates.2
      obtain ⟨plan', changed, refines⟩ := node (.filter p input') (by
        rintro p' input'' ⟨⟩
        exact predicates.1)
      exact ⟨plan', by rw [rewrite, rewritten, Outcome.ok_bind, changed],
        (inputs.filter p).trans refines⟩
  | project projections input ih =>
      obtain ⟨input', rewritten, inputs⟩ := ih predicates
      obtain ⟨plan', changed, refines⟩ := node (.project projections input') nofun
      exact ⟨plan', by rw [rewrite, rewritten, Outcome.ok_bind, changed],
        (inputs.project projections).trans refines⟩
  | aggregate groupBy aggregates input ih =>
      obtain ⟨input', rewritten, inputs⟩ := ih predicates
      obtain ⟨plan', changed, refines⟩ := node (.aggregate groupBy aggregates input') nofun
      exact ⟨plan', by rw [rewrite, rewritten, Outcome.ok_bind, changed],
        (inputs.aggregate groupBy aggregates).trans refines⟩
  | limit n input ih =>
      obtain ⟨input', rewritten, inputs⟩ := ih predicates
      obtain ⟨plan', changed, refines⟩ := node (.limit n input') nofun
      exact ⟨plan', by rw [rewrite, rewritten, Outcome.ok_bind, changed],
        (inputs.limit n).trans refines⟩

end Plans

/-! ## Coercion -/

/-- What is called a column has the type of that column. -/
def TypedRow (schema : TableSchema) (row : Row) : Prop :=
  ∀ table col d, row.lookup (.column table col) = some d →
    ∃ c, schema.find col = some c ∧ d.HasType c.dataType

theorem as_typed (t : DataType) (v : t.Native) : I.as t (.typed t v) = some v := by
  simp [Interpretation.as]

theorem compare_typed_left (t : DataType) (a : t.Native) (d : Datum) :
    I.compare (.typed t a) d = (I.as t d).map fun b => Physical.cmpNative t a b := by
  rw [Interpretation.compare]

theorem compare_typed_right (t : DataType) (b : t.Native) (d : Datum) :
    I.compare d (.typed t b) = (I.as t d).map fun a => Physical.cmpNative t a b := by
  cases d with
  | typed t' a =>
      rw [compare_typed_left]
      by_cases same : t = t'
      · subst same
        rw [as_typed, as_typed]
        rfl
      · simp [Interpretation.as, same, Ne.symm same]
  | integer v => rfl
  | float v => rfl
  | null => rfl

/-- A comparison with a value of a type looks at the other operand as one of that type. -/
theorem binaryOp_as {op : BinaryOp} (comparison : isComparisonOp op = true) {t : DataType}
    {a : t.Native} {d result : Datum} :
    (I.binaryOp (.typed t a) op d = some result →
      ∃ b, I.as t d = some b ∧ I.binaryOp (.typed t a) op (.typed t b) = some result) ∧
    (I.binaryOp d op (.typed t a) = some result →
      ∃ b, I.as t d = some b ∧ I.binaryOp (.typed t b) op (.typed t a) = some result) := by
  have ordered : ∀ left right, I.binaryOp left op right = (do
      let test ← op.test
      let order ← I.compare left right
      some (.typed .bool (test order))) := by
    intro left right
    cases op <;> first | rfl | cases comparison
  simp only [ordered, compare_typed_left, compare_typed_right, as_typed]
  constructor
  · intro defined
    cases seen : I.as t d with
    | none =>
        rw [seen] at defined
        cases op <;> cases defined
    | some b => exact ⟨b, rfl, by rwa [seen] at defined⟩
  · intro defined
    cases seen : I.as t d with
    | none =>
        rw [seen] at defined
        cases op <;> cases defined
    | some b => exact ⟨b, rfl, by rwa [seen] at defined⟩

/-- A cast next to a column changes no comparison. -/
theorem coerceComparison_refines {schema : TableSchema} {left right : LogicalExpr} {op : BinaryOp}
    (comparison : isComparisonOp op = true)
    (found : ∀ table col, left = .column table col ∨ right = .column table col →
      (schema.find col).isSome) :
    ∃ e, coerceComparison left op right schema = .ok e ∧
      ∀ row, TypedRow schema row →
        Refines Eq (I.eval row (.binaryOp left op right)) (I.eval row e) := by
  have target : ∀ {table col}, left = .column table col ∨ right = .column table col →
      ∃ c, schema.find col = some c ∧ targetType schema col = .ok c.dataType := by
    intro table col side
    obtain ⟨c, here⟩ := Option.isSome_iff_exists.mp (found table col side)
    exact ⟨c, here, by rw [targetType, here]; rfl⟩
  unfold coerceComparison
  split
  · rename_i table col lit
    obtain ⟨c, here, type⟩ := target (.inl rfl)
    refine ⟨_, by rw [type, Outcome.ok_bind], fun row typed result defined => ?_⟩
    simp only [Interpretation.eval, Option.bind_eq_bind, Option.bind_some] at defined
    obtain ⟨d, looked, defined⟩ := Option.bind_eq_some_iff.mp defined
    obtain ⟨c', here', v, rfl⟩ := typed table col d looked
    cases here.symm.trans here'
    obtain ⟨b, seen, same⟩ := (binaryOp_as I comparison).1 defined
    refine ⟨result, ?_, rfl⟩
    simp only [Interpretation.eval, looked, seen, Option.bind_eq_bind, Option.bind_some,
      Option.map_some, same]
  · rename_i lit table col
    obtain ⟨c, here, type⟩ := target (.inr rfl)
    refine ⟨_, by rw [type, Outcome.ok_bind], fun row typed result defined => ?_⟩
    simp only [Interpretation.eval, Option.bind_eq_bind, Option.bind_some] at defined
    obtain ⟨d, looked, defined⟩ := Option.bind_eq_some_iff.mp defined
    obtain ⟨c', here', v, rfl⟩ := typed table col d looked
    cases here.symm.trans here'
    obtain ⟨b, seen, same⟩ := (binaryOp_as I comparison).2 defined
    refine ⟨result, ?_, rfl⟩
    simp only [Interpretation.eval, looked, seen, Option.bind_eq_bind, Option.bind_some,
      Option.map_some, same]
  · exact ⟨_, rfl, fun row _ result defined => ⟨result, defined, rfl⟩⟩

/-- The columns of an expression exist. -/
def HasColumns (schema : TableSchema) (e : LogicalExpr) : Prop :=
  ∀ name ∈ Physical.collectExprColumns e, (schema.find name).isSome

theorem collectExprColumns_coerceComparison {schema : TableSchema} {left right e : LogicalExpr}
    {op : BinaryOp} (coerced : coerceComparison left op right schema = .ok e) :
    Physical.collectExprColumns e =
      Physical.collectExprColumns left ++ Physical.collectExprColumns right := by
  unfold coerceComparison at coerced
  split at coerced
  · obtain ⟨t, _, coerced⟩ := Outcome.bind_eq_ok.mp coerced
    cases coerced
    rfl
  · obtain ⟨t, _, coerced⟩ := Outcome.bind_eq_ok.mp coerced
    cases coerced
    rfl
  · cases coerced
    rfl

/-- **Coercion keeps the value of an expression**, and its columns. -/
theorem coerceExpr_refines {schema : TableSchema} {e : LogicalExpr}
    (columns : HasColumns schema e) :
    ∃ e', coerceExpr schema e = .ok e' ∧
      Physical.collectExprColumns e' = Physical.collectExprColumns e ∧
      ∀ row, TypedRow schema row → Refines Eq (I.eval row e) (I.eval row e') := by
  have same : ∀ e row, Refines Eq (I.eval row e) (I.eval row e) := fun e row d defined =>
    ⟨d, defined, rfl⟩
  induction e with
  | column table col => exact ⟨_, rfl, rfl, fun row _ => same _ row⟩
  | literal lit => exact ⟨_, rfl, rfl, fun row _ => same _ row⟩
  | aggregate func arg _ => exact ⟨_, rfl, rfl, fun row _ => same _ row⟩
  | cast expr target ih =>
      obtain ⟨e', coerced, names, refines⟩ := ih columns
      refine ⟨.cast e' target, ?_, names, fun row typed => ?_⟩
      · rw [coerceExpr, coerced, Outcome.ok_bind]
      · refine Refines.bind (refines row typed) fun a a' _ equal => ?_
        subst equal
        exact fun d defined => ⟨d, defined, rfl⟩
  | binaryOp left op right ihLeft ihRight =>
      obtain ⟨left', coercedLeft, namesLeft, refinesLeft⟩ := ihLeft fun name member =>
        columns name (List.mem_append_left _ member)
      obtain ⟨right', coercedRight, namesRight, refinesRight⟩ := ihRight fun name member =>
        columns name (List.mem_append_right _ member)
      have operands : ∀ row, TypedRow schema row →
          Refines Eq (I.eval row (.binaryOp left op right))
            (I.eval row (.binaryOp left' op right')) := by
        intro row typed
        refine Refines.bind (refinesLeft row typed) fun a a' _ equal => ?_
        refine Refines.bind (refinesRight row typed) fun b b' _ equal' => ?_
        subst equal equal'
        exact fun d defined => ⟨d, defined, rfl⟩
      by_cases comparison : isComparisonOp op = true
      · obtain ⟨e', coerced, refines⟩ := @coerceComparison_refines I schema left' right' op
          comparison (by
            rintro table col (rfl | rfl)
            · exact columns col (List.mem_append_left _ (namesLeft ▸ List.mem_singleton_self col))
            · exact columns col (List.mem_append_right _
                (namesRight ▸ List.mem_singleton_self col)))
        refine ⟨e', ?_, ?_, fun row typed => ?_⟩
        · rw [coerceExpr, coercedLeft, Outcome.ok_bind, coercedRight, Outcome.ok_bind,
            if_pos comparison, coerced]
        · rw [collectExprColumns_coerceComparison coerced, namesLeft, namesRight]
          rfl
        · exact @Refines.trans Datum Eq (fun _ _ _ => Eq.trans) _ _ _ (operands row typed)
            (refines row typed)
      · refine ⟨.binaryOp left' op right', ?_, ?_, operands⟩
        · rw [coerceExpr, coercedLeft, Outcome.ok_bind, coercedRight, Outcome.ok_bind,
            if_neg comparison]
        · rw [Physical.collectExprColumns, namesLeft, namesRight]
          rfl

/-! ## Folding -/

theorem foldInt_compare {a b : I64} {op : BinaryOp} {result : Datum}
    (defined : I.binaryOp (.integer a) op (.integer b) = some result) :
    ∃ value, foldInt a op b = some value ∧ result = .typed .bool value := by
  have test : ∀ (op : Physical.CmpOp) {p : Prop} [Decidable p],
      (op.test (Physical.cmpInt a.val b.val) = true ↔ p) →
        op.test (Physical.cmpInt a.val b.val) = decide p := fun op _ _ spec =>
    Bool.eq_iff_iff.mpr (spec.trans decide_eq_true_iff.symm)
  cases op with
  | and => cases defined
  | or => cases defined
  | _ =>
      cases defined
      exact ⟨_, rfl, congrArg (Datum.typed .bool) (test _ (Physical.test_cmpInt _ a.val b.val))⟩

theorem asBool_eq_some {d : Datum} {b : Bool} (known : d.asBool = some b) : d = .typed .bool b := by
  unfold Datum.asBool at known
  split at known
  · cases known
    rfl
  · cases known

/-- AND and OR are of Booleans. -/
theorem binaryOp_bool {a b result : Datum} :
    (I.binaryOp a .and b = some result →
      ∃ x y, a = .typed .bool x ∧ b = .typed .bool y ∧ result = .typed .bool (x && y)) ∧
    (I.binaryOp a .or b = some result →
      ∃ x y, a = .typed .bool x ∧ b = .typed .bool y ∧ result = .typed .bool (x || y)) := by
  constructor
  · intro defined
    obtain ⟨x, known, rest⟩ := Option.bind_eq_some_iff.mp defined
    obtain ⟨y, known', rest'⟩ := Option.bind_eq_some_iff.mp rest
    exact ⟨x, y, asBool_eq_some known, asBool_eq_some known', (Option.some.inj rest').symm⟩
  · intro defined
    obtain ⟨x, known, rest⟩ := Option.bind_eq_some_iff.mp defined
    obtain ⟨y, known', rest'⟩ := Option.bind_eq_some_iff.mp rest
    exact ⟨x, y, asBool_eq_some known, asBool_eq_some known', (Option.some.inj rest').symm⟩

/-- **Folding keeps the value of an expression.** -/
theorem foldExpr_refines (row : Row) (e : LogicalExpr) :
    Refines Eq (I.eval row e) (I.eval row (foldExpr e)) := by
  have same : ∀ e, Refines Eq (I.eval row e) (I.eval row e) := fun e d defined =>
    ⟨d, defined, rfl⟩
  induction e with
  | column table col => exact same _
  | literal lit => exact same _
  | aggregate func arg _ => exact same _
  | cast expr target _ => exact same _
  | binaryOp left op right ihLeft ihRight =>
      intro result defined
      obtain ⟨a, here, rest⟩ := Option.bind_eq_some_iff.mp defined
      obtain ⟨b, there, value⟩ := Option.bind_eq_some_iff.mp rest
      obtain ⟨_, hereFolded, rfl⟩ := ihLeft a here
      obtain ⟨_, thereFolded, rfl⟩ := ihRight b there
      clear defined rest
      refine ⟨result, ?_, rfl⟩
      simp only [foldExpr]
      split
      · rename_i m n leftLit rightLit
        rw [leftLit] at hereFolded
        rw [rightLit] at thereFolded
        cases hereFolded
        cases thereFolded
        obtain ⟨result, folded, rfl⟩ := foldInt_compare I value
        rw [folded]
        rfl
      · rename_i leftLit
        rw [leftLit] at hereFolded
        obtain ⟨x, y, rfl, rfl, rfl⟩ := (binaryOp_bool I).1 value
        cases hereFolded
        exact thereFolded
      · rename_i leftLit
        rw [leftLit] at hereFolded
        obtain ⟨x, y, rfl, rfl, rfl⟩ := (binaryOp_bool I).1 value
        cases hereFolded
        rfl
      · rename_i leftLit
        rw [leftLit] at hereFolded
        obtain ⟨x, y, rfl, rfl, rfl⟩ := (binaryOp_bool I).2 value
        cases hereFolded
        rfl
      · rename_i leftLit
        rw [leftLit] at hereFolded
        obtain ⟨x, y, rfl, rfl, rfl⟩ := (binaryOp_bool I).2 value
        cases hereFolded
        exact thereFolded
      · rw [Interpretation.eval, hereFolded, Option.bind_eq_bind, Option.bind_some, thereFolded]
        exact value

/-! ## Typed rows -/

theorem mem_of_lookup {row : Row} {e : LogicalExpr} {d : Datum} (found : row.lookup e = some d) :
    (e, d) ∈ row := by
  obtain ⟨before, after, rfl, _⟩ := List.lookup_eq_some_iff.mp found
  simp

/-- The cells of a projection hold the values of their expressions. -/
theorem eval_of_mem_cells {row cells : Row} {exprs : List LogicalExpr}
    (projected : exprs.mapM (I.cell row) = some cells) {e : LogicalExpr} {d : Datum}
    (member : (e, d) ∈ cells) : I.eval row e = some d := by
  obtain ⟨_, _, cell⟩ := exists_of_mem_right (forall₂_of_mapM projected) member
  obtain ⟨_, value, same⟩ := Option.map_eq_some_iff.mp cell
  cases same
  exact value

/-- The key of a group holds the values of the group columns. -/
theorem eval_of_mem_key {row : Row} {key : List Datum} {groupBy : List LogicalExpr}
    (made : groupBy.mapM (I.eval row) = some key) {e : LogicalExpr} {d : Datum}
    (member : (e, d) ∈ groupBy.zip key) : I.eval row e = some d :=
  List.forall₂_zip (forall₂_of_mapM made) member

theorem typedRow_scan {schema : TableSchema} {row : List Datum}
    (typed : List.Forall₂ (fun (c : ColumnSchema) d => d.HasType c.dataType) schema.columns row) :
    TypedRow schema
      ((schema.columns.map fun c => LogicalExpr.column schema.name c.name).zip row) := by
  intro table col d found
  rw [TableSchema.find]
  generalize schema.columns = columns at typed found
  induction typed with
  | nil => cases found
  | @cons c v columns row here _ ih =>
      rw [List.map_cons, List.zip_cons_cons, List.lookup_cons] at found
      by_cases same : c.name = col
      · refine ⟨c, List.find?_cons_of_pos (by simpa using same), ?_⟩
        split at found
        · cases found
          exact here
        · rename_i differ
          -- the same name with another table in front is not in the row at all
          have inside := mem_of_lookup found
          obtain ⟨c', _, same'⟩ := List.mem_map.mp (List.of_mem_zip inside).1
          cases same'
          simp [same] at differ
      · split at found
        · rename_i equal
          cases eq_of_beq equal
          exact (same rfl).elim
        · rw [List.find?_cons_of_neg (by simpa using same)]
          exact ih found

theorem subset_of_filterRows {p : LogicalExpr} {rows rows' : List Row}
    (filtered : I.filterRows p rows = some rows') : ∀ row ∈ rows', row ∈ rows := by
  intro row member
  obtain ⟨tested, made, same⟩ := Option.bind_eq_some_iff.mp filtered
  cases same
  obtain ⟨entry, inside, rfl⟩ := List.mem_map.mp member
  obtain ⟨row', here, test⟩ :=
    exists_of_mem_right (forall₂_of_mapM made) (List.mem_of_mem_filter inside)
  obtain ⟨d, _, test⟩ := Option.bind_eq_some_iff.mp test
  obtain ⟨b, _, test⟩ := Option.bind_eq_some_iff.mp test
  cases test
  exact here

/-- **Every plan has typed rows.** -/
theorem meaning_typed {schema : TableSchema} (table : Table schema) {plan : LogicalPlan}
    {rows : List Row} (defined : I.meaning table plan = some rows) :
    ∀ row ∈ rows, TypedRow schema row := by
  induction plan generalizing rows with
  | scan name =>
      rw [Interpretation.meaning] at defined
      split at defined
      · cases defined
        intro row member
        obtain ⟨cells, inside, rfl⟩ := List.mem_map.mp member
        exact typedRow_scan (table.typed cells inside)
      · cases defined
  | filter p input ih =>
      obtain ⟨rows', below, filtered⟩ := Option.bind_eq_some_iff.mp defined
      exact fun row member => ih below row (subset_of_filterRows I filtered row member)
  | project projections input ih =>
      obtain ⟨rows', below, projected⟩ := Option.bind_eq_some_iff.mp defined
      intro row member name col d found
      obtain ⟨row', inside, cells⟩ := exists_of_mem_right (forall₂_of_mapM projected) member
      exact ih below row' inside name col d (eval_of_mem_cells I cells (mem_of_lookup found))
  | limit n input ih =>
      obtain ⟨rows', below, taken⟩ := Option.bind_eq_some_iff.mp defined
      cases taken
      exact fun row member => ih below row (List.mem_of_mem_take member)
  | aggregate groupBy aggregates input ih =>
      obtain ⟨rows', below, aggregated⟩ := Option.bind_eq_some_iff.mp defined
      obtain ⟨keyed, made, aggregated⟩ := Option.bind_eq_some_iff.mp aggregated
      intro row member name col d found
      obtain ⟨key, inside, group⟩ := exists_of_mem_right (forall₂_of_mapM aggregated) member
      obtain ⟨cells, computed, same⟩ := Option.bind_eq_some_iff.mp group
      cases same
      rcases List.mem_append.mp (mem_of_lookup found) with column | aggregate
      · -- a group column has its value from a row of the group
        split at inside
        · rename_i none
          rw [List.isEmpty_iff.mp none] at column
          cases column
        · obtain ⟨entry, there, rfl⟩ := List.mem_map.mp (List.mem_dedup.mp inside)
          obtain ⟨row', inside', key⟩ := exists_of_mem_right (forall₂_of_mapM made) there
          obtain ⟨key', made', same⟩ := Option.map_eq_some_iff.mp key
          cases same
          exact ih below row' inside' name col d (eval_of_mem_key I made' column)
      · obtain ⟨e, _, cell⟩ := exists_of_mem_right (forall₂_of_mapM computed) aggregate
        cases e with
        | aggregate func arg =>
            obtain ⟨values, _, cell⟩ := Option.bind_eq_some_iff.mp cell
            obtain ⟨v, _, same⟩ := Option.map_eq_some_iff.mp cell
            cases same
        | _ => cases cell

/-! ## The rules -/

section Rules

variable {I} {schema : TableSchema} {table : Table schema}

theorem typeCoercion_refines {plan : LogicalPlan} (columns : plan.Predicates (HasColumns schema)) :
    ∃ plan', (typeCoercion schema).apply plan = .ok plan' ∧ PlanRefines I table plan plan' := by
  refine rewrite_refines (fun plan predicates => ?_) columns
  cases plan with
  | filter p input =>
      obtain ⟨p', coerced, _, refines⟩ := coerceExpr_refines I (predicates p input rfl)
      refine ⟨.filter p' input, by simp only [coerced, Outcome.ok_bind], ?_⟩
      refine Refines.bind (PlanRefines.refl input) fun rows rows' defined both => ?_
      refine filterRows_mono I both fun row member row' extends' => ?_
      exact @Refines.trans Datum Eq (fun _ _ _ => Eq.trans) _ _ _
        (refines row (meaning_typed I table defined row member)) (eval_mono I extends' p')
  | scan name => exact ⟨_, rfl, .refl _⟩
  | project projections input => exact ⟨_, rfl, .refl _⟩
  | aggregate groupBy aggregates input => exact ⟨_, rfl, .refl _⟩
  | limit n input => exact ⟨_, rfl, .refl _⟩

/-- What is looked up is not folded. -/
theorem foldExpr_of_isName {e : LogicalExpr} (name : e.IsName) : foldExpr e = e := by
  cases e with
  | column table col => rfl
  | aggregate func arg => rfl
  | _ => exact name.elim

/-- A folded projection has the same values. It may have more names, but a name that
folding has made stands for the same value in the row below. -/
theorem project_fold (row : Row) (projections : List LogicalExpr) :
    Refines Extends (projections.mapM (I.cell row))
      ((projections.map foldExpr).mapM (I.cell row)) := by
  intro cells defined
  have each := forall₂_of_mapM defined
  have folded : Refines (List.Forall₂ fun (entry entry' : LogicalExpr × Datum) =>
      entry' = (foldExpr entry.1, entry.2)) (projections.mapM (I.cell row))
      (projections.mapM fun e => I.cell row (foldExpr e)) := by
    refine Refines.mapM_same fun e _ => ?_
    intro entry made
    obtain ⟨d, value, rfl⟩ := Option.map_eq_some_iff.mp made
    obtain ⟨_, value', rfl⟩ := foldExpr_refines I row e d value
    exact ⟨(foldExpr e, d), by rw [Interpretation.cell, value']; rfl, rfl⟩
  obtain ⟨cells', defined', both⟩ := folded cells defined
  rw [← Function.comp_def, ← List.mapM_map] at defined'
  refine ⟨cells', defined', ?_, ?_⟩
  · intro e d name found
    obtain ⟨_, inside, same⟩ := exists_of_mem_left both (mem_of_lookup found)
    rw [foldExpr_of_isName name] at same
    subst same
    obtain ⟨d', found'⟩ := Option.isSome_iff_exists.mp
      (List.lookup_isSome_iff.mpr ⟨(e, d), inside, beq_self_eq_true e⟩)
    have value := eval_of_mem_cells I defined (mem_of_lookup found)
    have value' := eval_of_mem_cells I defined' (mem_of_lookup found')
    rw [found', ← value', value]
  · clear defined defined' each folded
    induction both with
    | nil => rfl
    | cons here _ ih => rw [List.map_cons, List.map_cons, ih, here]

theorem predicates_true (plan : LogicalPlan) : plan.Predicates fun _ => True := by
  induction plan with
  | scan name => trivial
  | filter p input ih => exact ⟨trivial, ih⟩
  | project projections input ih => exact ih
  | aggregate groupBy aggregates input ih => exact ih
  | limit n input ih => exact ih

theorem constantFolding_refines (plan : LogicalPlan) :
    ∃ plan', constantFolding.apply plan = .ok plan' ∧ PlanRefines I table plan plan' := by
  refine rewrite_refines (fun plan _ => ?_) (predicates_true plan)
  cases plan with
  | filter p input =>
      refine ⟨_, rfl, ?_⟩
      refine Refines.bind (PlanRefines.refl input) fun rows rows' _ both => ?_
      refine filterRows_mono I both fun row _ row' extends' => ?_
      exact @Refines.trans Datum Eq (fun _ _ _ => Eq.trans) _ _ _ (foldExpr_refines I row p)
        (eval_mono I extends' (foldExpr p))
  | project projections input =>
      refine ⟨_, rfl, ?_⟩
      have input' : Refines Eq (I.meaning table input) (I.meaning table input) :=
        fun rows defined => ⟨rows, defined, rfl⟩
      refine Refines.bind input' fun rows rows' _ same => ?_
      subst same
      exact Refines.mapM_same fun row _ => project_fold row projections
  | scan name => exact ⟨_, rfl, .refl _⟩
  | aggregate groupBy aggregates input => exact ⟨_, rfl, .refl _⟩
  | limit n input => exact ⟨_, rfl, .refl _⟩

/-- A filter that is always true keeps all rows. -/
theorem filterRows_true (rows : List Row) :
    I.filterRows (.literal (.bool true)) rows = some rows := by
  have tested : rows.mapM (fun row => do
      let d ← I.eval row (.literal (.bool true))
      let b ← d.asBool
      some (row, b)) = some (rows.map fun row => (row, true)) := by
    induction rows with
    | nil => rfl
    | cons row rows ih =>
        rw [List.mapM_cons, ih]
        rfl
  rw [Interpretation.filterRows, tested]
  simp [List.filter_map, Function.comp_def]

theorem eliminateTrueFilter_refines (plan : LogicalPlan) :
    ∃ plan', eliminateTrueFilter.apply plan = .ok plan' ∧ PlanRefines I table plan plan' := by
  refine rewrite_refines (fun plan _ => ?_) (predicates_true plan)
  split
  · refine ⟨_, rfl, fun rows defined => ?_⟩
    obtain ⟨rows', below, filtered⟩ := Option.bind_eq_some_iff.mp defined
    cases (filterRows_true rows').symm.trans filtered
    exact ⟨rows, below, extends_refl rows⟩
  · exact ⟨_, rfl, .refl _⟩

end Rules

/-- No filter has the literal predicate true. -/
def LogicalPlan.NoTrueFilter : LogicalPlan → Prop
  | .scan _ => True
  | .filter p input => p ≠ .literal (.bool true) ∧ input.NoTrueFilter
  | .project _ input | .aggregate _ _ input | .limit _ input => input.NoTrueFilter

/-- A filter that is always true is removed wherever it stands. -/
theorem noTrueFilter_of_eliminate {plan plan' : LogicalPlan}
    (applied : eliminateTrueFilter.apply plan = .ok plan') : plan'.NoTrueFilter := by
  unfold eliminateTrueFilter at applied
  dsimp only at applied
  induction plan generalizing plan' with
  | scan name =>
      cases applied
      trivial
  | filter p input ih =>
      obtain ⟨input', below, changed⟩ := Outcome.bind_eq_ok.mp applied
      dsimp only at changed
      split at changed
      · rename_i same
        cases same
        cases changed
        exact ih below
      · rename_i other
        cases changed
        refine ⟨?_, ih below⟩
        rintro rfl
        exact other input' rfl
  | project projections input ih =>
      obtain ⟨input', below, changed⟩ := Outcome.bind_eq_ok.mp applied
      cases changed
      exact (ih below : input'.NoTrueFilter)
  | aggregate groupBy aggregates input ih =>
      obtain ⟨input', below, changed⟩ := Outcome.bind_eq_ok.mp applied
      cases changed
      exact (ih below : input'.NoTrueFilter)
  | limit n input ih =>
      obtain ⟨input', below, changed⟩ := Outcome.bind_eq_ok.mp applied
      cases changed
      exact (ih below : input'.NoTrueFilter)

/-- The columns of a plan exist, so those of its predicates do. -/
theorem predicates_of_columns {schema : TableSchema} {plan : LogicalPlan}
    (columns : ∀ name ∈ Physical.collectColumns plan, (schema.find name).isSome) :
    plan.Predicates (HasColumns schema) := by
  induction plan with
  | scan name => trivial
  | filter p input ih =>
      exact ⟨fun name member => columns name (List.mem_append_left _ member),
        ih fun name member => columns name (List.mem_append_right _ member)⟩
  | project projections input ih =>
      exact ih fun name member => columns name (List.mem_append_right _ member)
  | aggregate groupBy aggregates input ih =>
      exact ih fun name member => columns name (List.mem_append_right _ member)
  | limit n input ih => exact ih columns

/-! ## The optimizer -/

/-- **The logical optimizer keeps the meaning of a plan** whose columns exist: it does not
panic, no filter that is always true is left, and on every table on which the plan has a
meaning the optimized plan has the same rows. -/
theorem optimize_meaning (schema : TableSchema) (plan : LogicalPlan)
    (columns : ∀ name ∈ Physical.collectColumns plan, (schema.find name).isSome) :
    ∃ plan', optimize schema plan = .ok plan' ∧ plan'.NoTrueFilter ∧
      ∀ (I : Interpretation) (table : Table schema) (rows : List Row),
        I.meaning table plan = some rows →
        ∃ rows', I.meaning table plan' = some rows' ∧ values rows' = values rows := by
  have run : ∀ (I : Interpretation) (table : Table schema), ∃ plan',
      optimize schema plan = .ok plan' ∧ plan'.NoTrueFilter ∧ PlanRefines I table plan plan' := by
    intro I table
    obtain ⟨coerced, first, refinesFirst⟩ :=
      @typeCoercion_refines I schema table plan (predicates_of_columns columns)
    obtain ⟨folded, second, refinesSecond⟩ := @constantFolding_refines I schema table coerced
    obtain ⟨plan', third, refinesThird⟩ := @eliminateTrueFilter_refines I schema table folded
    refine ⟨plan', ?_, noTrueFilter_of_eliminate third,
      refinesFirst.trans (refinesSecond.trans refinesThird)⟩
    rw [optimize_eq, first, Outcome.ok_bind, second, Outcome.ok_bind, third]
  obtain ⟨plan', optimized, noTrue, _⟩ := run Interpretation.exact ⟨[], nofun⟩
  refine ⟨plan', optimized, noTrue, fun I table rows defined => ?_⟩
  obtain ⟨_, optimized', _, refines⟩ := run I table
  cases optimized.symm.trans optimized'
  obtain ⟨rows', defined', both⟩ := refines rows defined
  exact ⟨rows', defined', values_of_extends both⟩

/-- A table of numbers. -/
def numberSchema : TableSchema := ⟨"t", [⟨"n", .int .i64⟩]⟩

def twoNumbers : Table numberSchema where
  rows := [[.typed (.int .i64) (MachineInt.wrap true 63 1)],
    [.typed (.int .i64) (MachineInt.wrap true 63 5)]]
  typed := by
    intro row member
    rcases List.mem_cons.mp member with rfl | member
    · exact .cons ⟨_, rfl⟩ .nil
    · cases List.mem_singleton.mp member
      exact .cons ⟨_, rfl⟩ .nil

/-- `SELECT n FROM t WHERE 1 = 1 AND n > 3`. -/
def largeNumbers : LogicalPlan :=
  .project [.column "t" "n"]
    (.filter (.binaryOp
        (.binaryOp (.literal (.int (MachineInt.wrap true 63 1))) .eq
          (.literal (.int (MachineInt.wrap true 63 1))))
        .and
        (.binaryOp (.column "t" "n") .gt (.literal (.int (MachineInt.wrap true 63 3)))))
      (.scan "t"))

theorem optimize_meaning_numbers :
    ∃ plan', optimize numberSchema largeNumbers = .ok plan' ∧ plan'.NoTrueFilter ∧
      ∃ rows', Interpretation.exact.meaning twoNumbers plan' = some rows' ∧
        values rows' = [[.typed (.int .i64) (MachineInt.wrap true 63 5)]] := by
  obtain ⟨plan', optimized, noTrue, same⟩ :=
    optimize_meaning numberSchema largeNumbers (by decide)
  have defined : ∃ rows, Interpretation.exact.meaning twoNumbers largeNumbers = some rows ∧
      values rows = [[.typed (.int .i64) (MachineInt.wrap true 63 5)]] := ⟨_, rfl, rfl⟩
  obtain ⟨rows, meaning, here⟩ := defined
  obtain ⟨rows', meaning', equal⟩ := same Interpretation.exact twoNumbers rows meaning
  exact ⟨plan', optimized, noTrue, rows', meaning', equal.trans here⟩

end TinyOlap.Logical
