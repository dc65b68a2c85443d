import TinyOlap.Execution.Plan

/-!
# The fields of what a tree returns

All batches that a tree returns have the same fields, and which these are can be seen from
the tree: the scan has them in its schema, a filter and a limit leave them alone, a
projection finds each of its columns among them, and an aggregation has fields of its own.
-/

set_option autoImplicit false

namespace TinyOlap.Execution

open Library Library.WorkPool Catalog Arrow Storage Physical

/-- The field a projection finds: the first one with the name. -/
def projectedField (fields : List Field) : PhysicalExpr → Option Field
  | .column name => fields.find? fun f => f.name = name
  | _ => none

/-- The fields of the batches of a tree. -/
def ExecutionPlan.outputFields : ExecutionPlan → List Field
  | .fullScan s => s.schema
  | .zoneMapScan s => s.schema
  | .filter _ child => child.outputFields
  | .project projections child => projections.filterMap (projectedField child.outputFields)
  | .limit _ _ child => child.outputFields
  | .hashAggregate s _ => s.outputSchema

/-- The number of rows of a result. -/
def resultRows : BatchResult → Nat
  | .ok b => b.numRows
  | .error _ => 0

/-- A result is an error, or a batch with these fields. -/
def HasFields (fields : List Field) (result : BatchResult) : Prop :=
  ∀ batch, result = .ok batch → batch.fields = fields

theorem hasFields_error (fields : List Field) (e : ExecutionError) :
    HasFields fields (.error e) := fun _ => nofun

/-- What a computation returns has the fields if its batch has. -/
theorem keeps_returning {σ : Type} {I : σ → Prop} {s : σ} {fields : List Field}
    {result : ExecResult RecordBatch} (state : I s)
    (typed : ∀ batch, result = .ok batch → batch.fields = fields) :
    (Turn.returning s result).Keeps I (HasFields fields) := by
  cases result with
  | ok batch =>
      refine ⟨state, fun i member => ?_⟩
      cases member
      intro batch' same
      cases same
      exact typed batch rfl
  | err e =>
      refine ⟨state, fun i member => ?_⟩
      cases member
      exact hasFields_error fields e
  | panic => trivial

theorem keeps_error {σ : Type} {I : σ → Prop} {s : σ} {fields : List Field} {e : ExecutionError}
    (state : I s) :
    (Turn.ret (some (.error e)) s : Turn σ BatchResult).Keeps I (HasFields fields) := by
  refine ⟨state, fun i member => ?_⟩
  cases member
  exact hasFields_error fields e

/-! ## Operators -/

/-- A scan keeps its schema, and its batches have the fields of the schema. -/
theorem keeps_actSkipping (lz4 : Lz4) (skip : PartDir → Bool) (s : FullScanExec)
    (work : Option PartDir) :
    ((s.actSkipping lz4 skip).answer work).Keeps (fun s' => s'.schema = s.schema)
      (HasFields s.schema) := by
  unfold FullScanExec.actSkipping
  split
  · cases work with
    | none => exact ⟨rfl, by simp⟩
    | some partDir =>
        simp only [Act.answer]
        split
        · exact rfl
        · unfold FullScanExec.openPart
          split
          · trivial
          · exact rfl
          · exact keeps_error rfl
          · trivial
  · simp only [Act.answer, FullScanExec.readNext]
    split
    · refine keeps_returning rfl fun batch made => ?_
      exact (RecordBatch.of_tryNew_eq_ok (Outcome.mapErr_eq_ok.mp made)).1
    · exact keeps_error rfl
    · trivial

/-- A batch made of columns has the fields it was made with. -/
theorem fields_of_tryNewWithRows {fields : List Field} {columns : List ArrayRef} {n : Nat}
    {b : RecordBatch} (made : RecordBatch.tryNewWithRows fields columns n = .ok b) :
    b.fields = fields := by
  unfold RecordBatch.tryNewWithRows at made
  split at made
  · cases made
  · split at made
    · split at made
      · cases made
        rfl
      · cases made
    · cases made

/-- A projected batch has the fields that the projection finds. -/
theorem fields_of_projectBatch {projections : List PhysicalExpr} {batch projected : RecordBatch}
    (made : projectBatch projections batch = .ok projected) :
    projected.fields = projections.filterMap (projectedField batch.fields) := by
  obtain ⟨indices, found, made⟩ := Outcome.bind_eq_ok.mp made
  obtain ⟨fields, selected, made⟩ := Outcome.bind_eq_ok.mp (Outcome.mapErr_eq_ok.mp made)
  obtain ⟨columns, _, made⟩ := Outcome.bind_eq_ok.mp made
  rw [fields_of_tryNewWithRows made]
  have both : List.Forall₂ (fun p f => projectedField batch.fields p = some f)
      projections fields := by
    refine forall₂_trans (Outcome.mapM_eq_ok found) (Outcome.mapM_eq_ok selected) ?_
    intro p i field one there
    have there := Outcome.ofOption_eq_ok.mp there
    cases p with
    | column name =>
        have position := Outcome.ofOption_eq_ok.mp (Outcome.mapErr_eq_ok.mp one)
        obtain ⟨inside, named, before⟩ := List.findIdx?_eq_some_iff_getElem.mp position
        rw [List.getElem?_eq_getElem inside] at there
        cases there
        exact List.find?_eq_some_iff_getElem.mpr ⟨named, _, inside, rfl, fun j less => by
          simpa using before j less⟩
    | literal lit => cases one
    | compare left op right => cases one
    | logical left op right => cases one
  exact (filterMap_of_forall₂ both).symm

/-- A filtered batch has the fields it had. -/
theorem fields_of_filterBatch {predicate : PhysicalExpr} {batch filtered : RecordBatch}
    (made : filterBatch predicate batch = .ok filtered) : filtered.fields = batch.fields := by
  obtain ⟨mask, _, made⟩ := Outcome.bind_eq_ok.mp made
  have made := Outcome.mapErr_eq_ok.mp made
  unfold RecordBatch.filter at made
  split at made
  · cases made
  · cases made
    rfl

/-- What taking a batch leaves of the output schema. -/
theorem outputSchema_absorbBatch
    (absorb : RecordBatch → List Nat → Nat → Accumulator → ExecResult Accumulator)
    (s : AggregateExec) (batch : RecordBatch) :
    (s.absorbBatch absorb batch).2.outputSchema = s.outputSchema := by
  unfold AggregateExec.absorbBatch
  split
  · rfl
  · split <;> rfl

theorem outputSchema_finish (s : AggregateExec) : s.finish.2.outputSchema = s.outputSchema := by
  unfold AggregateExec.finish
  split
  · dsimp only
    split <;> rfl
  · rfl
  · rfl

/-- The output of an aggregation has the fields of its output schema. -/
theorem fields_of_finish {s : AggregateExec} {batch : RecordBatch}
    (made : s.finish.1 = .ok batch) : batch.fields = s.outputSchema := by
  unfold AggregateExec.finish at made
  split at made
  · dsimp only at made
    split at made
    · rename_i b created
      cases made
      exact (RecordBatch.of_tryNew_eq_ok created).1
    · cases made
    · cases made
  · cases made
  · cases made

/-! ## Trees -/

/-- **Every turn keeps the fields of a tree**, and what it returns has them. -/
theorem keeps_outputFields (lz4 : Lz4) (plan : ExecutionPlan) (work : Option PartDir) :
    ((plan.act lz4).answer work).Keeps (fun p => p.outputFields = plan.outputFields)
      (HasFields plan.outputFields) := by
  induction plan with
  | fullScan s =>
      rw [ExecutionPlan.act, Act.answer_map]
      exact (keeps_actSkipping lz4 _ s work).map
  | zoneMapScan s =>
      rw [ExecutionPlan.act, Act.answer_map, ZoneMapScanExec.act, Act.answer_map]
      exact (keeps_actSkipping lz4 _ s.toFullScanExec work).map.map
  | filter predicate child ih =>
      rw [ExecutionPlan.act]
      refine Operator.keeps_onTop ih (by simp [filterExec]) (fun s same => same) ?_ ?_
      · intro i s typed same
        cases i with
        | error e => exact keeps_error same
        | ok batch =>
            simp only [filterExec]
            cases made : filterBatch predicate batch with
            | ok filtered =>
                dsimp only
                split
                · refine ⟨same, fun i member => ?_⟩
                  cases member
                  intro batch' equal
                  cases equal
                  exact (fields_of_filterBatch made).trans (typed batch rfl)
                · exact same
            | err e => exact keeps_error same
            | panic => trivial
      · intro s same
        exact ⟨same, by simp⟩
  | project projections child ih =>
      rw [ExecutionPlan.act]
      have keep : ∀ c : ExecutionPlan, c.outputFields = child.outputFields →
          (ExecutionPlan.project projections c).outputFields =
            (ExecutionPlan.project projections child).outputFields := by
        intro c same
        simp only [ExecutionPlan.outputFields, same]
      refine Operator.keeps_onTop ih (by simp [projectExec]) keep ?_ ?_
      · intro i s typed same
        cases i with
        | error e => exact keeps_error (keep s same)
        | ok batch =>
            refine Turn.Keeps.map (keeps_returning (keep s same) fun projected made => ?_)
            rw [fields_of_projectBatch made, typed batch rfl]
            rfl
      · intro s same
        exact ⟨keep s same, by simp⟩
  | limit limit emitted child ih =>
      rw [ExecutionPlan.act]
      refine Operator.keeps_onTop ih (fun _ => rfl) (fun s same => same) ?_ ?_
      · intro i s typed same
        cases i with
        | error e => exact keeps_error same
        | ok batch =>
            simp only [limitExec]
            split
            · refine ⟨same, fun i member => ?_⟩
              cases member
              exact typed
            · refine ⟨same, fun i member => ?_⟩
              cases member
              intro batch' equal
              cases equal
              exact typed batch rfl
      · intro s same
        exact ⟨same, by simp⟩
  | hashAggregate s child ih =>
      rw [ExecutionPlan.act]
      refine Operator.keeps_onTop ih (fun _ => rfl) (fun s same => rfl) ?_ ?_
      · intro i c typed same
        cases i with
        | error e => exact keeps_error rfl
        | ok batch =>
            have schema := outputSchema_absorbBatch Accumulator.update s batch
            simp only [hashAggregateExec]
            cases absorbed : s.absorbBatch Accumulator.update batch with
            | mk outcome s' =>
                rw [absorbed] at schema
                cases outcome with
                | ok _ => exact schema
                | err e => exact keeps_error schema
                | panic => trivial
      · intro c same
        exact Turn.Keeps.map (keeps_returning (outputSchema_finish s)
          fun batch made => fields_of_finish made)

end TinyOlap.Execution
