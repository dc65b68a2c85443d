import TinyOlap.Execution.Builder
import TinyOlap.Storage.TableWriter

/-!
# The end of a gather

A gather is given children of any kind, and its consumer learns that there are no more
results when all worker threads have ended and none is in flight. A thread ends when its
child returns none, but also when its child panics: then the sender of the channel is
dropped all the same, and the panic is only seen, and thrown away, when the thread is
joined. So the end can be trusted of all children of a kind, on all parts of a kind and every
schedule, exactly if none of these children, run alone on such parts, panics before it has
returned an error (`neverMistaken_iff`).
-/

set_option autoImplicit false

namespace TinyOlap.Execution

open Library Library.WorkPool Catalog Arrow Storage

/-! ## Drained children -/

variable {σ : Type} {act : σ → Act PartDir σ BatchResult} {parts : List PartDir}
  {children : List σ} {events : List Event} {g : Pool PartDir σ BatchResult}

/-- A child was drained: its thread ended because it returned none, and by then it had
returned what the consumer received of it. -/
def Drained (act : σ → Act PartDir σ BatchResult) (child : σ) (w : Nat)
    (g : Pool PartDir σ BatchResult) : Prop :=
  g.workers[w]? = some .finished ∧ ∃ turns handed exhausted,
    Runs act child turns handed exhausted (ofWorker w g.received) .finished

/-- The consumer has received an error. -/
def ErrorReceived (g : Pool PartDir σ BatchResult) : Prop :=
  ∃ e, .error e ∈ g.received.map Prod.snd

/-- A thread that has not panicked in the end has drained its child. -/
theorem drained_of_hungUp
    (ran : WorkPool.run act channelBound (.ofChildren parts children) events = some g)
    (ended : g.hungUp = true) (calm : .crashed ∉ g.workers) {w : Nat} {child : σ}
    (isChild : children[w]? = some child) : Drained act child w g := by
  obtain ⟨log, _, _, _, _, fate⟩ := ended_of_hungUp ran ended
  obtain ⟨turns, exhausted, phase, atWorker, ended, runs, _⟩ := fate w child isChild
  rcases ended with rfl | rfl
  · exact ⟨atWorker, turns, _, exhausted, runs⟩
  · exact (calm (List.mem_of_getElem? atWorker)).elim

/-- On every schedule a thread that ends in a panic has an error received before none, so none
without an error before means that every child was drained. -/
def NeverMistaken (act : σ → Act PartDir σ BatchResult) (parts : List PartDir)
    (children : List σ) : Prop :=
  ∀ events g, WorkPool.run act channelBound (.ofChildren parts children) events = some g →
    g.hungUp = true →
    (.crashed ∈ g.workers → ErrorReceived g) ∧
    (¬ ErrorReceived g → ∀ w child, children[w]? = some child → Drained act child w g)

/-- A child that, run alone on parts of a kind, never panics before it has returned an error. -/
def ErrsFirst (act : σ → Act PartDir σ BatchResult) (good : PartDir → Prop) (child : σ) : Prop :=
  ∀ turns handed exhausted sent, (∀ partDir ∈ handed, good partDir) →
    Runs act child turns handed exhausted sent .crashed → ∃ e, .error e ∈ sent

/-- What each of the children does alone, all of them do together. -/
theorem neverMistaken_of_errsFirst {good : PartDir → Prop}
    (ofKind : ∀ partDir ∈ parts, good partDir)
    (errs : ∀ child ∈ children, ErrsFirst act good child) : NeverMistaken act parts children := by
  intro events g ran ended
  have told : .crashed ∈ g.workers → ErrorReceived g := by
    intro member
    obtain ⟨w, atWorker⟩ := List.getElem?_of_mem member
    obtain ⟨_, _, explained, _⟩ := explained_of_run ran
    have inside : w < children.length :=
      explained.count_eq ▸ (List.getElem?_eq_some_iff.mp atWorker).1
    obtain ⟨log, _, _, _, share, fate⟩ := ended_of_hungUp ran ended
    obtain ⟨turns, exhausted, phase, here, _, runs, _⟩ :=
      fate w _ (List.getElem?_eq_getElem inside)
    cases atWorker.symm.trans here
    obtain ⟨e, sent⟩ := errs _ (List.getElem_mem inside) turns _ exhausted _
      (fun partDir handed => ofKind partDir ((share w).subset handed)) runs
    exact ⟨e, ((ofWorker_sublist w g.received).subset sent)⟩
  exact ⟨told, fun calm w child isChild =>
    drained_of_hungUp ran ended (fun crashed => calm (told crashed)) isChild⟩

/-- **When the end of data can be trusted.** Take children of one kind and parts of one kind,
whatever they are. A dying worker is never mistaken for the end of data, for any list of such
children, any list of such parts and any schedule, if and only if no such child, run alone on
such parts, panics before it has returned an error. -/
theorem neverMistaken_iff (act : σ → Act PartDir σ BatchResult) (good : PartDir → Prop)
    (kind : σ → Prop) :
    (∀ parts children, (∀ partDir ∈ parts, good partDir) → (∀ child ∈ children, kind child) →
      NeverMistaken act parts children) ↔
    ∀ child, kind child → ErrsFirst act good child := by
  constructor
  · intro trusted child isKind turns handed exhausted sent ofKind runs
    -- the child alone, on the parts that it has been handed
    obtain ⟨events, next, _, ran⟩ := @exists_run_of_runs PartDir σ BatchResult act child
      channelBound turns 0 handed exhausted sent .crashed (.ofChildren handed [child]) (by decide)
      rfl rfl runs (List.prefix_rfl) fun _ => rfl
    obtain ⟨told, _⟩ := trusted handed [child] ofKind (by simpa using isKind)
      (events ++ [.disconnect]) _ (by rw [run_append, ran]; rfl) rfl
    obtain ⟨e, member⟩ := told List.mem_cons_self
    exact ⟨e, by simpa [Pool.ofChildren] using member⟩
  · intro errs parts children ofKind isKind
    exact neverMistaken_of_errsFirst ofKind fun child member => errs child (isKind child member)

/-! ## A child that panics -/

/-- A table with one column. -/
def flagSchema : TableSchema := ⟨"t", [⟨"flag", .bool⟩]⟩

/-- A batch without a row. -/
def noFlags : InsertBatch where
  fields := [⟨"flag", .data .bool⟩]
  columns := [⟨.data .bool, []⟩]
  numRows := 0
  typed := rfl
  lengths := by decide
  offsets := by decide

/-- The scan of the column. -/
def flagScan : ExecutionPlan :=
  .fullScan (.new flagSchema.columns (flagSchema.columns.map Field.ofColumn))

/-- The part that a batch without a row leaves behind. -/
def emptyPart : PartDir :=
  (TableWriter.insert Lz4.literals (.open flagSchema .dataDir) noFlags).2.part 0

/-- A scan of a part without a granule panics, and the consumer receives none and no error
before. -/
theorem none_received_after_panic : ∃ g,
    WorkPool.run (ExecutionPlan.act Lz4.literals) channelBound (.ofChildren [emptyPart] [flagScan])
      [.work 0, .work 0, .disconnect] = some g ∧
    g.hungUp = true ∧ g.received = [] ∧ .crashed ∈ g.workers ∧
    ¬ Drained (ExecutionPlan.act Lz4.literals) flagScan 0 g ∧
    ¬ NeverMistaken (ExecutionPlan.act Lz4.literals) [emptyPart] [flagScan] := by
  have ran : ∃ g, WorkPool.run (ExecutionPlan.act Lz4.literals) channelBound
      (.ofChildren [emptyPart] [flagScan]) [.work 0, .work 0, .disconnect] = some g ∧
      g.hungUp = true ∧ g.received = [] ∧ g.workers = [.crashed] := ⟨_, rfl, rfl, rfl, rfl⟩
  obtain ⟨g, ran, ended, received, workers⟩ := ran
  have crashed : .crashed ∈ g.workers := workers ▸ List.mem_cons_self
  refine ⟨g, ran, ended, received, crashed, ?_, fun trusted => ?_⟩
  · rintro ⟨finished, _⟩
    rw [workers] at finished
    cases finished
  · obtain ⟨e, member⟩ := (trusted _ g ran ended).1 crashed
    rw [received] at member
    cases member

end TinyOlap.Execution
