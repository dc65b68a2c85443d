import TinyOlap.Execution.Aggregation.Merge
import TinyOlap.Execution.Builder
import TinyOlap.Execution.OutputFields

/-!
# The way of an error

An operator that produces an error hands it to the operator above it, and so on up to the
worker, which sends it to the consumer like a batch and goes on. The next results of the
worker may then look complete although a failed batch is missing from them; but the consumer
stops at the first error it receives, and an error that was produced is received before the
end.
-/

set_option autoImplicit false

namespace TinyOlap.Execution

open Library Library.WorkPool Catalog Arrow Storage Physical

/-! ## Errors inside a worker -/

/-- Some operator of the tree produces the error in its next turn, if it is told so of the
next part. An aggregation that has emitted its batch does not pull any more. -/
def Produces (lz4 : Lz4) (work : Option PartDir) (e : ExecutionError) : ExecutionPlan → Prop
  | .fullScan s => ∃ s', (s.act lz4).answer work = .ret (some (.error e)) s'
  | .zoneMapScan s => ∃ s', (s.act lz4).answer work = .ret (some (.error e)) s'
  | .filter predicate child =>
      Produces lz4 work e child ∨ ∃ batch child',
        (child.act lz4).answer work = .ret (some (.ok batch)) child' ∧
          filterBatch predicate batch = .err e
  | .project projections child =>
      Produces lz4 work e child ∨ ∃ batch child',
        (child.act lz4).answer work = .ret (some (.ok batch)) child' ∧
          projectBatch projections batch = .err e
  | .limit limit emitted child => emitted < limit ∧ Produces lz4 work e child
  | .hashAggregate s child => s.emitted = false ∧
      (Produces lz4 work e child ∨
        (∃ batch child', (child.act lz4).answer work = .ret (some (.ok batch)) child' ∧
          (s.absorbBatch Accumulator.update batch).1 = .err e) ∨
        ∃ child', (child.act lz4).answer work = .ret none child' ∧ s.finish.1 = .err e)

/-- **An error that is produced is returned.** -/
theorem answer_of_produces {lz4 : Lz4} {work : Option PartDir} {e : ExecutionError}
    {plan : ExecutionPlan} (produces : Produces lz4 work e plan) :
    ∃ plan', (plan.act lz4).answer work = .ret (some (.error e)) plan' := by
  induction plan with
  | fullScan s =>
      obtain ⟨s', returns⟩ := produces
      rw [ExecutionPlan.act, Act.answer_map, returns]
      exact ⟨_, rfl⟩
  | zoneMapScan s =>
      obtain ⟨s', returns⟩ := produces
      rw [ExecutionPlan.act, Act.answer_map, returns]
      exact ⟨_, rfl⟩
  | filter predicate child ih =>
      rw [ExecutionPlan.act, Operator.answer_onTop, if_neg (by simp [filterExec])]
      rcases produces with below | ⟨batch, child', returns, failed⟩
      · obtain ⟨child', returns⟩ := ih below
        rw [returns]
        exact ⟨_, rfl⟩
      · rw [returns]
        simp only [Operator.react, filterExec, failed]
        exact ⟨_, rfl⟩
  | project projections child ih =>
      rw [ExecutionPlan.act, Operator.answer_onTop, if_neg (by simp [projectExec])]
      rcases produces with below | ⟨batch, child', returns, failed⟩
      · obtain ⟨child', returns⟩ := ih below
        rw [returns]
        exact ⟨_, rfl⟩
      · rw [returns]
        simp only [Operator.react, projectExec, failed]
        exact ⟨_, rfl⟩
  | limit limit emitted child ih =>
      have going : (limitExec limit).gate emitted = false := by
        simpa [limitExec] using produces.1
      obtain ⟨child', returns⟩ := ih produces.2
      rw [ExecutionPlan.act, Operator.answer_onTop, if_neg (by simp [going]), returns]
      exact ⟨_, rfl⟩
  | hashAggregate s child ih =>
      have going : hashAggregateExec.gate s = false := produces.1
      rw [ExecutionPlan.act, Operator.answer_onTop, if_neg (by simp [going])]
      rcases produces.2 with below | ⟨batch, child', returns, failed⟩ | ⟨child', returns, failed⟩
      · obtain ⟨child', returns⟩ := ih below
        rw [returns]
        exact ⟨_, rfl⟩
      · rw [returns]
        simp only [Operator.react, hashAggregateExec]
        cases absorbed : s.absorbBatch Accumulator.update batch with
        | mk outcome s' =>
            rw [absorbed] at failed
            cases failed
            exact ⟨_, rfl⟩
      · rw [returns]
        simp only [Operator.react, hashAggregateExec, failed]
        exact ⟨_, rfl⟩

/-! ## The consumer -/

/-- A list with an error among it is not collected. -/
theorem collectBatches_of_error {results : List BatchResult} {e : ExecutionError}
    (erred : .error e ∈ results) : ∃ e', RootExec.collectBatches results = .err e' := by
  induction results with
  | nil => cases erred
  | cons result rest ih =>
      rw [RootExec.collectBatches, List.mapM_cons]
      cases result with
      | error e' => exact ⟨e', rfl⟩
      | ok batch =>
          obtain ⟨e', collected⟩ := ih (by simpa using erred)
          refine ⟨e', ?_⟩
          rw [RootExec.collectBatches] at collected
          rw [collected]
          rfl

theorem collectBatches_ne_panic (results : List BatchResult) :
    RootExec.collectBatches results ≠ .panic := by
  induction results with
  | nil => simp [RootExec.collectBatches]
  | cons result rest ih =>
      rw [RootExec.collectBatches] at ih
      rw [RootExec.collectBatches, List.mapM_cons]
      cases result with
      | error e => simp [Outcome.ofExcept]
      | ok batch =>
          simp only [Outcome.ofExcept, Outcome.ok_bind]
          cases collected : rest.mapM (Outcome.ofExcept (id : ExecutionError → _)) with
          | ok batches => simp
          | err e => simp
          | panic => exact (ih collected).elim

/-- New accumulators have their flags. -/
theorem buildAccumulator_even {schema : TableSchema} {isPartial : Bool} {spec : AggSpec}
    {acc : Accumulator} (built : buildAccumulator schema isPartial spec = .ok acc) : acc.Even := by
  have typed : ∀ {name function : String} {make : NumericType → Accumulator},
      (∀ t, (make t).Even) → buildTyped schema name function make = .ok acc → acc.Even := by
    intro name function make even made
    obtain ⟨c, _, made⟩ := Outcome.bind_eq_ok.mp made
    obtain ⟨t, _, made⟩ := Outcome.bind_eq_ok.mp made
    cases made
    exact even t
  obtain ⟨func, arg, outputName⟩ := spec
  cases arg with
  | column name =>
      cases func with
      | count =>
          cases built
          trivial
      | sum =>
          have even : ∀ t, (Accumulator.sum t name []).Even := fun _ => trivial
          exact typed even built
      | avg =>
          cases built
          trivial
      | min =>
          have even : ∀ t, (Accumulator.min t name ⟨[], []⟩).Even := fun _ => ⟨Nat.le_refl _, rfl⟩
          exact typed even built
      | max =>
          have even : ∀ t, (Accumulator.max t name ⟨[], []⟩).Even := fun _ => ⟨Nat.le_refl _, rfl⟩
          exact typed even built
  | literal lit => cases built
  | compare left op right => cases built
  | logical left op right => cases built

/-- The final aggregation of a query is in order at the start. -/
theorem ready_of_build {plan : PhysicalPlan} {schema : TableSchema}
    {tableDir : PartList} {root : RootExec} {merge : AggregateExec}
    (built : build plan schema tableDir = .ok root) (merges : root.merge = some merge) :
    merge.Ready := by
  obtain ⟨child, _, built⟩ := Outcome.bind_eq_ok.mp built
  cases found : findAggregate plan with
  | none =>
      rw [found] at built
      cases built
      cases merges
  | some aggregate =>
      obtain ⟨groupBy, aggregates⟩ := aggregate
      rw [found] at built
      obtain ⟨accumulators, accs, built⟩ := Outcome.bind_eq_ok.mp built
      obtain ⟨fields, _, built⟩ := Outcome.bind_eq_ok.mp built
      cases built
      cases merges
      have even : ∀ acc ∈ accumulators, acc.Even := by
        intro acc member
        obtain ⟨spec, _, one⟩ := exists_of_mem_right (Outcome.mapM_eq_ok accs) member
        exact buildAccumulator_even one
      constructor
      · intro entry member
        cases member
      · intro acc member
        simp only [MergeAggregateExec.new, HashAggregateExec.new] at member
        split at member
        · obtain ⟨acc', source, rfl⟩ := List.mem_map.mp member
          exact Accumulator.even_ensureCapacity (even acc' source) 1
        · exact even acc member

theorem GatherExec.mem_returned {g : GatherExec} {w : Nat} {result : BatchResult}
    (received : (w, result) ∈ g.received) : result ∈ g.returned :=
  List.mem_map.mpr ⟨_, received, rfl⟩

/-- A consumer that has received an error does not return a value. -/
theorem returned_of_error {root : RootExec} {g : GatherExec} {e : ExecutionError}
    (erred : .error e ∈ g.returned) :
    (∃ e', root.returned g = some (.err e')) ∨ root.returned g = some .panic := by
  unfold RootExec.returned
  cases merges : root.merge with
  | none =>
      obtain ⟨e', collected⟩ := collectBatches_of_error erred
      rw [collected]
      exact .inl ⟨e', rfl⟩
  | some merge =>
      cases consumed : merge.consume g.returned with
      | ok merge' => exact (AggregateExec.consume_ne_ok erred consumed).elim
      | err e' =>
          simp [consumed]
      | panic => simp [consumed]

/-- A consumer whose final aggregation accepts what the workers send returns no panic as long
as it waits for more. -/
theorem returned_of_carried {root : RootExec} {g : GatherExec} {w : Nat} {e : ExecutionError}
    {children : List ExecutionPlan} {events : List Event} {lz4 : Lz4}
    (ran : WorkPool.run (ExecutionPlan.act lz4) channelBound (.ofChildren root.parts children)
      events = some g)
    (calm : ∀ merge, root.merge = some merge → merge.consume g.returned ≠ .panic)
    (carries : Carries g w (.error e)) {result : ExecResult (List RecordBatch)}
    (returned : root.returned g = some result) : ∃ e', result = .err e' := by
  have arrived : g.hungUp = true → .error e ∈ g.returned := fun ended =>
    GatherExec.mem_returned (carries.received ran ended)
  unfold RootExec.returned at returned
  cases merges : root.merge with
  | none =>
      simp only [merges] at returned
      cases collected : RootExec.collectBatches g.returned with
      | ok batches =>
          simp only [collected] at returned
          split at returned
          · rename_i ended
            obtain ⟨e', failed⟩ := collectBatches_of_error (arrived ended)
            rw [failed] at collected
            cases collected
          · cases returned
      | err e' =>
          simp only [collected] at returned
          cases returned
          exact ⟨e', rfl⟩
      | panic => exact (collectBatches_ne_panic _ collected).elim
  | some merge =>
      simp only [merges] at returned
      cases consumed : merge.consume g.returned with
      | ok merge' =>
          simp only [consumed] at returned
          split at returned
          · rename_i ended
            exact (AggregateExec.consume_ne_ok (arrived ended) consumed).elim
          · cases returned
      | err e' =>
          simp only [consumed] at returned
          cases returned
          exact ⟨e', rfl⟩
      | panic => exact (calm merge merges consumed).elim

/-! ## Reported errors -/

/-- **A produced error is reported.** Provided that the final aggregation, if there is one,
accepts what the workers return, a query in which an operator of a worker has produced an
error returns an error, whatever the schedule: it returns nothing else, it has returned an
error when the consumer learns that there is no more, and it can always go on to return one. -/
theorem error_of_produces {lz4 : Lz4} {plan : PhysicalPlan} {schema : TableSchema}
    {tableDir : PartList} {root : RootExec} {nInputs : Nat} {start g g' : GatherExec}
    {before after : List Event} {w : Nat} {tree : ExecutionPlan} {e : ExecutionError}
    (built : build plan schema tableDir = .ok root)
    (accepts : ∀ merge, root.merge = some merge → merge.Accepts root.child.outputFields)
    (created : GatherExec.new root.parts nInputs root.child = .ok start)
    (reached : start.run lz4 before = some g)
    (running : g.workers[w]? = some (.running tree))
    (produces : Produces lz4 g.works[g.next]? e tree)
    (ran : g.run lz4 (.work w :: after) = some g') :
    (∀ result, root.returned g' = some result → ∃ e', result = .err e') ∧
      (g'.hungUp = true → ∃ e', root.returned g' = some (.err e')) ∧
      ∃ more g'' e', g'.run lz4 more = some g'' ∧ root.returned g'' = some (.err e') := by
  have initial : start = .ofChildren root.parts (List.replicate nInputs root.child) := by
    unfold GatherExec.new at created
    split at created
    · cases created
    · cases created
      exact Pool.init_eq _ _ _
  -- the fields of all that is received
  have keeps : ∀ (s : ExecutionPlan) (work : Option PartDir),
      s.outputFields = root.child.outputFields →
      ((s.act lz4).answer work).Keeps (fun p => p.outputFields = root.child.outputFields)
        (HasFields root.child.outputFields) := by
    intro s work same
    exact same ▸ keeps_outputFields lz4 s work
  have calm : ∀ {events : List Event} {p : GatherExec}, start.run lz4 events = some p →
      ∀ merge, root.merge = some merge → merge.consume p.returned ≠ .panic := by
    intro events p toHere merge merges
    have holds : start.Holds (fun s => s.outputFields = root.child.outputFields)
        (HasFields root.child.outputFields) := by
      rw [initial, ← Pool.init_eq]
      exact Pool.Holds.init rfl
    have kept := holds.run keeps toHere
    refine AggregateExec.consume_ne_panic (fun batch member => ?_) (ready_of_build built merges)
    obtain ⟨entry, here, same⟩ := List.mem_map.mp member
    have typed := kept.sent entry (List.mem_append_left _ here)
    rw [typed batch same]
    exact accepts merge merges
  -- the error is on its way
  obtain ⟨tree', returns⟩ := answer_of_produces produces
  obtain ⟨g₁, steps, onwards⟩ := Option.bind_eq_some_iff.mp ran
  have carries : Carries g' w (.error e) := (carries_of_work running returns steps).run onwards
  have whole : start.run lz4 (before ++ .work w :: after) = some g' := by
    rw [GatherExec.run, run_append]
    exact Option.bind_eq_some_iff.mpr ⟨g, reached, ran⟩
  have reports : ∀ {events : List Event} {p : GatherExec}, start.run lz4 events = some p →
      Carries p w (.error e) → ∀ result, root.returned p = some result →
        ∃ e', result = .err e' := by
    intro events p toHere carried result returned
    have calmHere := calm toHere
    rw [initial] at toHere
    exact returned_of_carried toHere calmHere carried returned
  have arrives : ∀ {events : List Event} {p : GatherExec}, start.run lz4 events = some p →
      Carries p w (.error e) → .error e ∈ p.returned → ∃ e', root.returned p = some (.err e') := by
    intro events p toHere carried arrived
    rcases returned_of_error arrived with failed | panicked
    · exact failed
    · obtain ⟨e', same⟩ := reports toHere carried _ panicked
      cases same
  refine ⟨reports whole carries, fun ended => ?_, ?_⟩
  · refine arrives whole carries (GatherExec.mem_returned (w := w) ?_)
    rw [initial] at whole
    exact carries.received whole ended
  · obtain ⟨more, g'', ran', arrived⟩ :=
      @Carries.exists_received _ _ _ (ExecutionPlan.act lz4) channelBound g' w _ (by decide) carries
    have whole' : start.run lz4 ((before ++ .work w :: after) ++ more) = some g'' := by
      rw [GatherExec.run, run_append]
      exact Option.bind_eq_some_iff.mpr ⟨g', whole, ran'⟩
    obtain ⟨e', failed⟩ := arrives whole' (carries.run ran') (GatherExec.mem_returned arrived)
    exact ⟨more, g'', e', ran', failed⟩

/-! ## A panic instead of the error -/

/-- A table with two columns. -/
def pairSchema : TableSchema := ⟨"t", [⟨"a", .int .i64⟩, ⟨"b", .int .i64⟩]⟩

/-- `SELECT COUNT(a) FROM t GROUP BY b`. -/
def countByPlan : PhysicalPlan :=
  .project [.column "count(a)"]
    (.aggregate [.column "b"] [⟨.count, .column "a", "count(a)"⟩] (.fullScan "t" ["a", "b"]))

/-- `SELECT b, COUNT(a) FROM t GROUP BY b`. -/
def groupAndCountPlan : PhysicalPlan :=
  .project [.column "b", .column "count(a)"]
    (.aggregate [.column "b"] [⟨.count, .column "a", "count(a)"⟩] (.fullScan "t" ["a", "b"]))

/-- A directory without files. -/
def brokenPart : PartDir := fun _ => none

/-- The error of a file that is not there. -/
def missingFile : ExecutionError := .io notFound

theorem listParts_one (name : String) (partDir : PartDir) :
    listParts [(name, partDir)] = [partDir] := by
  simp [listParts]

/-- One worker cannot open its part, the other one sends the counts of no rows. The group
column is missing among them, and the final aggregation panics before the error arrives. -/
theorem panic_of_produces : ∃ root start g,
    build countByPlan pairSchema [("part_00000", brokenPart)] = .ok root ∧
    GatherExec.new root.parts 2 root.child = .ok start ∧
    (∃ tree e, start.workers[1]? = some (.running tree) ∧
      Produces Lz4.literals start.works[start.next]? e tree) ∧
    start.run Lz4.literals [.work 1, .work 0, .send 0, .receive] = some g ∧
    root.returned g = some .panic := by
  obtain ⟨child, merge, start, g, built, created, erring, ran, returned⟩ :
      ∃ child merge start g, build countByPlan pairSchema [("part_00000", brokenPart)] =
          .ok ⟨listParts [("part_00000", brokenPart)], child, merge⟩ ∧
        GatherExec.new [brokenPart] 2 child = .ok start ∧
        (∃ tree e, start.workers[1]? = some (.running tree) ∧
          Produces Lz4.literals start.works[start.next]? e tree) ∧
        start.run Lz4.literals [.work 1, .work 0, .send 0, .receive] = some g ∧
        (RootExec.mk [brokenPart] child merge).returned g = some .panic := by
    refine ⟨_, _, _, _, rfl, rfl, ⟨_, missingFile, rfl, ?_⟩, rfl, rfl⟩
    exact .inl ⟨rfl, .inl ⟨_, rfl⟩⟩
  rw [listParts_one] at built
  exact ⟨_, start, g, built, created, erring, ran, returned⟩

/-- With the group column among the counts the error is returned. -/
theorem error_of_produces_grouped : ∃ root start g e',
    build groupAndCountPlan pairSchema [("part_00000", brokenPart)] = .ok root ∧
    GatherExec.new root.parts 2 root.child = .ok start ∧
    start.run Lz4.literals [.work 1, .work 0, .send 0, .receive, .send 1, .receive] = some g ∧
    root.returned g = some (.err e') := by
  obtain ⟨child, merge, start, tree, g, e, built, accepts, created, running, produces, ran,
      isSome⟩ : ∃ child merge start tree g e,
        build groupAndCountPlan pairSchema [("part_00000", brokenPart)] =
          .ok ⟨listParts [("part_00000", brokenPart)], child, some merge⟩ ∧
        merge.Accepts child.outputFields ∧
        GatherExec.new [brokenPart] 2 child = .ok start ∧
        start.workers[1]? = some (.running tree) ∧
        Produces Lz4.literals start.works[start.next]? e tree ∧
        start.run Lz4.literals [.work 1, .work 0, .send 0, .receive, .send 1, .receive] = some g ∧
        ((RootExec.mk [brokenPart] child (some merge)).returned g).isSome = true := by
    refine ⟨_, _, _, _, _, missingFile, rfl, ⟨?_, ?_⟩, rfl, rfl, ?_, rfl, rfl⟩
    · intro f member
      cases List.mem_singleton.mp member
      exact ⟨_, List.mem_cons_self, rfl⟩
    · intro acc member
      cases List.mem_singleton.mp member
      rfl
    · exact .inl ⟨rfl, .inl ⟨_, rfl⟩⟩
  rw [listParts_one] at built
  obtain ⟨result, returned⟩ := Option.isSome_iff_exists.mp isSome
  obtain ⟨reports, -⟩ := @error_of_produces _ _ _ _ _ _ _ _ _ [] _ _ _ _ built
    (fun _ merges => by cases merges; exact accepts) created rfl running produces ran
  obtain ⟨e', rfl⟩ := reports result returned
  exact ⟨_, start, g, e', built, created, ran, returned⟩

end TinyOlap.Execution
