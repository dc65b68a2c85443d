import TinyOlap.RowPlan
import TinyOlap.Storage.InsertIsolation

/-!
# Queries while inserts run

A query lists the table directory and then reads the files of the parts it has found, while
insert calls go on, fail or crash, and the process may be started again. The listing is not
taken at one moment, and each file is read at a moment of its own. Still the query returns its
answer to a set of whole inserts: all that had made their part when the listing began, none
that had not when it ended, and each once (`snapshot_rows`). An insert that has returned Ok has
made its part.
-/

set_option autoImplicit false

namespace TinyOlap.Storage

open Library Encoding Catalog Arrow Execution

variable {lz4 : Lz4} {schema : TableSchema} {s s' : Table} {events : List TableEvent}

/-! ## What a call keeps -/

/-- A call, some steps later. -/
structure Call.Later (call call' : Call) : Prop where
  batch : call'.batch = call.batch
  partId : ∀ id, call.partId = some id → call'.partId = some id
  renamed : call.renamed = true → call'.renamed = true

namespace Call

theorem Later.refl (call : Call) : call.Later call := ⟨rfl, fun _ => id, id⟩

theorem Later.trans {call call' call'' : Call} (first : call.Later call')
    (second : call'.Later call'') : call.Later call'' :=
  ⟨second.batch.trans first.batch, fun id named => second.partId id (first.partId id named),
    fun made => second.renamed (first.renamed made)⟩

theorem Moves.later {disk disk' : Disk} {n n' : Nat} {call call' : Call}
    (moves : Moves lz4 schema disk n call disk' n' call') : call.Later call' := by
  refine ⟨moves.batch, fun id => moves.partId, fun made => ?_⟩
  cases moves with
  | rename id disk' begun named done => rfl
  | _ => exact made

theorem later_lose (call : Call) : call.Later call.lose :=
  ⟨call.lose_batch, by simp, by simp⟩

/-- The call has returned Ok. -/
def Acknowledged (call : Call) : Prop := ∃ m, call.stage = .returned (some m)

/-- A call syncs the table directory, and returns Ok, only after it has made its part. -/
def Honest (call : Call) : Prop :=
  call.stage = .syncDir ∨ call.Acknowledged → call.renamed = true

theorem Moves.honest {disk disk' : Disk} {n n' : Nat} {call call' : Call}
    (moves : Moves lz4 schema disk n call disk' n' call') (honest : call.Honest) :
    call'.Honest := by
  cases moves with
  | rename id disk' begun named done => exact fun _ => rfl
  | sync id ok begun named => exact fun _ => honest (.inl begun)
  | removeFile id name dir begun named present => exact honest
  | removeDir id begun named => exact honest
  | _ =>
      rintro (here | ⟨m, here⟩)
      · cases here
      · cases here

theorem honest_lose {call : Call} (honest : call.Honest) : call.lose.Honest := by
  rintro late
  rw [lose_renamed]
  refine honest ?_
  unfold lose Acknowledged at late
  split at late
  · exact late
  · rcases late with here | ⟨m, here⟩
    · cases here
    · cases here

end Call

namespace Table

/-- **A call keeps its place**, its batch, its part id, and its part. -/
theorem later_of_run (ran : s.run lz4 schema events = some s') {i : Nat} {call : Call}
    (atCall : s.calls[i]? = some call) :
    ∃ call', s'.calls[i]? = some call' ∧ call.Later call' := by
  induction events generalizing s call with
  | nil =>
      cases ran
      exact ⟨call, atCall, .refl call⟩
  | cons event rest ih =>
      obtain ⟨between, steps, ran⟩ := Option.bind_eq_some_iff.mp ran
      obtain ⟨next, atNext, later⟩ : ∃ next, between.calls[i]? = some next ∧ call.Later next := by
        rcases Table.step_cases steps with ⟨_, _, rfl⟩ | ⟨batch, _, _, rfl⟩ |
          ⟨j, what, n, other, disk', n', other', _, _, atOther, stepped, rfl⟩ | ⟨_, rfl⟩
        · exact ⟨call, atCall, .refl call⟩
        · refine ⟨call, ?_, .refl call⟩
          exact (List.getElem?_append_left (List.getElem?_eq_some_iff.mp atCall).1).trans atCall
        · by_cases same : j = i
          · subst same
            cases atOther.symm.trans atCall
            exact ⟨other', List.getElem?_set_self (List.getElem?_eq_some_iff.mp atCall).1,
              (Call.moves_of_step stepped).later⟩
          · exact ⟨call, (List.getElem?_set_ne same).trans atCall, .refl call⟩
        · exact ⟨call.lose, by simp [atCall], call.later_lose⟩
      obtain ⟨call', atCall', later'⟩ := ih ran atNext
      exact ⟨call', atCall', later.trans later'⟩

theorem honest_of_step {event : TableEvent} (steps : s.step lz4 schema event = some s')
    (honest : ∀ call ∈ s.calls, call.Honest) : ∀ call ∈ s'.calls, call.Honest := by
  rcases Table.step_cases steps with ⟨_, _, rfl⟩ | ⟨batch, _, _, rfl⟩ |
    ⟨i, what, n, call, disk', n', call', _, _, atCall, stepped, rfl⟩ | ⟨_, rfl⟩
  · exact honest
  · intro call member
    rcases List.mem_append.mp member with old | new
    · exact honest call old
    · rw [List.mem_singleton.mp new]
      rintro (here | ⟨m, here⟩)
      · cases here
      · cases here
  · intro other member
    rcases List.mem_or_eq_of_mem_set member with old | rfl
    · exact honest other old
    · exact (Call.moves_of_step stepped).honest (honest call (List.mem_of_getElem? atCall))
  · intro other member
    obtain ⟨call, inside, rfl⟩ := List.mem_map.mp member
    exact Call.honest_lose (honest call inside)

/-- **An insert that has returned Ok has made its part.** -/
theorem honest_of_run (ran : s.run lz4 schema events = some s')
    (honest : ∀ call ∈ s.calls, call.Honest) : ∀ call ∈ s'.calls, call.Honest := by
  induction events generalizing s with
  | nil =>
      cases ran
      exact honest
  | cons event rest ih =>
      obtain ⟨between, steps, ran⟩ := Option.bind_eq_some_iff.mp ran
      exact ih ran (honest_of_step steps honest)

end Table

/-! ## What a query finds -/

/-- What a query finds of the table directory while the table goes on. The directory is listed
between two states: no name twice, each of the names that were there all the time, and only names
that were there at some time. Then each file is read, at some later time. -/
structure Finds (lz4 : Lz4) (schema : TableSchema) (s : Table) (during : List TableEvent)
    (s' : Table) (after : List TableEvent) (tableDir : PartList) : Prop where
  once : (tableDir.map Prod.fst).Nodup
  lists : ∀ name,
    (∀ sofar now, sofar <+: during → s.run lz4 schema sofar = some now → name ∈ now.disk.listed) →
    name ∈ tableDir.map Prod.fst
  listed : ∀ entry ∈ tableDir, ∃ sofar now, sofar <+: during ∧
    s.run lz4 schema sofar = some now ∧ entry.1 ∈ now.disk.listed
  reads : ∀ entry ∈ tableDir, ∀ file, ∃ sofar now, sofar <+: after ∧
    s'.run lz4 schema sofar = some now ∧ entry.2 file = now.disk.part schema entry.1 file

/-- The batches of some of the calls. -/
def Table.batches (s : Table) (calls : List Nat) : List InsertBatch :=
  calls.filterMap fun i => s.calls[i]?.map Call.batch

/-- An entry that a query has found is the part that a call has made. -/
def MadeBy (lz4 : Lz4) (schema : TableSchema) (s : Table) (entry : String × PartDir) (i : Nat) :
    Prop :=
  ∃ call id, s.calls[i]? = some call ∧ call.renamed = true ∧ call.partId = some id ∧
    entry.1 = partName id ∧ WrittenPart lz4 schema call.batch.toRecordBatch entry.2

/-- A run goes on from the end of each of its beginnings. -/
theorem Table.run_of_prefix {sofar : List TableEvent} (front : sofar <+: events) {now : Table}
    (begun : s.run lz4 schema sofar = some now) (ran : s.run lz4 schema events = some s') :
    ∃ rest, now.run lz4 schema rest = some s' := by
  obtain ⟨rest, rfl⟩ := front
  rw [Table.run, List.foldlM_append] at ran
  obtain ⟨between, first, second⟩ := Option.bind_eq_some_iff.mp ran
  cases begun.symm.trans first
  exact ⟨rest, second⟩

section Finds

variable {s'' : Table} {during after : List TableEvent} {tableDir : PartList}

/-- **What a query finds are parts that calls have made.** -/
theorem Finds.madeBy (finds : Finds lz4 schema s during s' after tableDir)
    (distinct : schema.Distinct) (plain : schema.PlainNames) (inv : s.Inv lz4 schema)
    (ran : s.run lz4 schema during = some s') (ran' : s'.run lz4 schema after = some s'')
    (small : s''.IdsBelow) : ∀ entry ∈ tableDir, ∃ i, MadeBy lz4 schema s' entry i := by
  intro entry member
  have small' : s'.IdsBelow := .of_run ran' small
  have inv' := inv.run distinct plain ran small'
  -- the call that had made the part when its name was found
  obtain ⟨sofar, now, front, begun, present⟩ := finds.listed entry member
  obtain ⟨rest, ends⟩ := Table.run_of_prefix front begun ran
  have invNow := inv.run distinct plain begun (.of_run ends small')
  obtain ⟨⟨dir, found⟩, visible⟩ := Disk.mem_listed.mp present
  rcases invNow.named _ dir found with ⟨id, _, same, _⟩ | ⟨call, inside, id, made, named, same⟩
  · exact (not_listedName_tmpName id (same ▸ visible)).elim
  obtain ⟨i, atCall⟩ := List.mem_iff_getElem?.mp inside
  obtain ⟨call', atCall', later⟩ := Table.later_of_run ends atCall
  have made' := later.renamed made
  have named' := later.partId id named
  -- its files do not change any more
  obtain ⟨dir', found', whole, files⟩ :=
    inv'.complete call' (List.mem_of_getElem? atCall') id made' named'
  have contents : entry.2 = dir'.contents := by
    funext file
    obtain ⟨sofar, now, front, begun, reads⟩ := finds.reads entry member file
    obtain ⟨rest, ends⟩ := Table.run_of_prefix front begun ran'
    rw [reads, same, Disk.part_eq_contents plain (inv'.run_part distinct plain begun
      (.of_run ends small) (listedName_partName id) found') files]
  refine ⟨i, call', id, atCall', made', named', same, ?_⟩
  rw [contents]
  exact whole.written distinct

/-- A call makes one part, so no call has made two of them. -/
theorem MadeBy.nodup {calls : List Nat}
    (once : (tableDir.map Prod.fst).Nodup)
    (each : List.Forall₂ (MadeBy lz4 schema s) tableDir calls) : calls.Nodup := by
  let nameOf : Nat → Option String := fun i =>
    s.calls[i]?.bind fun call => call.partId.map partName
  have names : calls.map nameOf = (tableDir.map Prod.fst).map some := by
    rw [List.map_map]
    refine map_eq_of_forall₂ (each.imp fun entry i source => ?_)
    obtain ⟨call, id, atCall, _, named, same, _⟩ := source
    simp only [nameOf, atCall, named, Option.bind_some, Option.map_some, Function.comp_apply, same]
  refine List.Nodup.of_map nameOf ?_
  rw [names]
  exact once.map (Option.some_injective _)

/-- The parts have been written for the batches of the calls. -/
theorem MadeBy.batches {calls : List Nat}
    (each : List.Forall₂ (MadeBy lz4 schema s) tableDir calls) :
    List.Forall₂ (fun (entry : String × PartDir) (batch : InsertBatch) =>
      WrittenPart lz4 schema batch.toRecordBatch entry.2) tableDir (s.batches calls) := by
  induction each with
  | nil => exact .nil
  | cons source _ ih =>
      obtain ⟨call, id, atCall, _, _, _, written⟩ := source
      rw [Table.batches, List.filterMap_cons_some (b := call.batch) (by rw [atCall]; rfl)]
      exact .cons written ih

/-- **A query finds the parts of whole inserts**: of all that had made their part when the
listing began, of none that had not when it ended, and of each once. -/
theorem Finds.exists_calls (finds : Finds lz4 schema s during s' after tableDir)
    (distinct : schema.Distinct) (plain : schema.PlainNames) (inv : s.Inv lz4 schema)
    (ran : s.run lz4 schema during = some s') (ran' : s'.run lz4 schema after = some s'')
    (small : s''.IdsBelow) :
    ∃ calls : List Nat, calls.Nodup ∧
      (∀ i call, s.calls[i]? = some call → call.renamed = true → i ∈ calls) ∧
      (∀ i ∈ calls, ∃ call, s'.calls[i]? = some call ∧ call.renamed = true) ∧
      List.Forall₂ (MadeBy lz4 schema s') tableDir calls := by
  obtain ⟨calls, each⟩ := exists_forall₂ (finds.madeBy distinct plain inv ran ran' small)
  have small' : s'.IdsBelow := .of_run ran' small
  have inv' := inv.run distinct plain ran small'
  refine ⟨calls, MadeBy.nodup finds.once each, ?_, ?_, each⟩
  · intro i call atCall made
    obtain ⟨id, named⟩ := Option.ne_none_iff_exists'.mp
      (inv.renamed call (List.mem_of_getElem? atCall) made)
    obtain ⟨dir, found, _⟩ := inv.complete call (List.mem_of_getElem? atCall) id made named
    -- the part is there as long as the directory is listed
    obtain ⟨entry, member, same⟩ := List.mem_map.mp (finds.lists (partName id) (by
      intro sofar now front begun
      obtain ⟨rest, ends⟩ := Table.run_of_prefix front begun ran
      exact Disk.mem_listed.mpr ⟨⟨dir, inv.run_part distinct plain begun (.of_run ends small')
        (listedName_partName id) found⟩, listedName_partName id⟩))
    obtain ⟨j, inside, source⟩ := exists_of_mem_left each member
    obtain ⟨other, id', atOther, made', named', same', _⟩ := source
    obtain ⟨call', atCall', later⟩ := Table.later_of_run ran atCall
    have bound := small' call' (List.mem_of_getElem? atCall') id (later.partId id named)
    have bound' := small' other (List.mem_of_getElem? atOther) id' named'
    have sameId : id = id' := partName_inj (by omega) (by omega) (same.symm.trans same')
    subst sameId
    have here := inv'.owners i j call' other id atCall' atOther
      ⟨later.partId id named, .inl (later.renamed made)⟩ ⟨named', .inl made'⟩
    exact here ▸ inside
  · intro i member
    obtain ⟨entry, _, source⟩ := exists_of_mem_right each member
    obtain ⟨call, id, atCall, made, _⟩ := source
    exact ⟨call, atCall, made⟩

end Finds

end TinyOlap.Storage

namespace TinyOlap

open Library Catalog Arrow Storage Frontend Physical Execution

/-- An insert returns Ok. -/
def syncedInsert : List TableEvent :=
  .open :: wholeInsert oneMark 0 ++ [.call 0 (.syncDir true)]

end TinyOlap
