import TinyOlap.Storage.InsertIsolation

/-!
# Inserts that fail

A call of `insert` that fails before its directory has been renamed leaves the parts of the
table as they were. Behind the renaming there is one more step that can fail: the table
directory is synced, and if it cannot be opened or synced the call returns an error although
its part is there.
-/

set_option autoImplicit false

namespace TinyOlap.Storage

open Library Encoding Catalog Arrow

section Alone

variable {lz4 : Lz4} {schema : TableSchema}

/-- What a query sees is the same, but for the parts excepted. -/
def SameParts (schema : TableSchema) (before after : Disk) (excepted : String → Prop) : Prop :=
  ∀ name, ListedName name → ¬ excepted name →
    (name ∈ after.listed ↔ name ∈ before.listed) ∧ after.part schema name = before.part schema name

/-- The listed directories are the same, but for those excepted. -/
def SameDirs (before after : Disk) (excepted : String → Prop) : Prop :=
  ∀ name, ListedName name → ¬ excepted name → after.table.lookup name = before.table.lookup name

theorem SameDirs.sameParts {before after : Disk} {excepted : String → Prop}
    (plain : schema.PlainNames) (same : SameDirs before after excepted) :
    SameParts schema before after excepted := by
  intro name listed unexcepted
  have dir := same name listed unexcepted
  exact ⟨by rw [Disk.mem_listed, Disk.mem_listed, dir], Disk.part_congr plain dir⟩

/-- What a call has made of the parts, after these steps. -/
inductive Fate (before : Disk) (done : List CallEvent) (disk : Disk) (call : Call) : Prop
  /-- It has made no part. -/
  | unmade (unmade : call.renamed = false) (going : call.stage ≠ .syncDir)
      (unreturned : ∀ m, call.stage ≠ .returned (some m)) (synced : .syncDir false ∉ done)
      (same : SameDirs before disk fun _ => False)
  /-- It has made its part, and has synced the table directory or has yet to do so. -/
  | made (id : Nat) (made : call.renamed = true) (named : call.partId = some id)
      (free : before.table.lookup (partName id) = none)
      (fate : (.syncDir false ∉ done ∧ (call.stage = .syncDir ∨
          call.stage = .returned (some ⟨id, call.batch.numRows⟩))) ∨
        (.syncDir false ∈ done ∧ call.stage = .returned none))
      (same : SameDirs before disk fun name => name = partName id)

/-- Nothing happens to a call that has returned. -/
theorem Call.Moves.unreturned {disk disk' : Disk} {n n' : Nat} {call call' : Call}
    (moves : Call.Moves lz4 schema disk n call disk' n' call') (result : Option PartMetadata) :
    call.stage ≠ .returned result := by
  cases moves with
  | fail begun => rcases begun with ⟨_, _, begun⟩ | ⟨_, begun⟩ <;> simp [begun]
  | quit begun => rcases begun with begun | begun | begun | begun <;> simp [begun]
  | _ => simp [*]

/-- Syncing is all that happens to a call that has made its part. -/
theorem Call.step_syncDir {disk disk' : Disk} {n n' : Nat} {call call' : Call}
    {event : CallEvent} (made : call.stage = .syncDir)
    (steps : call.step lz4 schema disk n event = some (disk', n', call')) :
    ∃ ok id, event = .syncDir ok ∧ call.partId = some id ∧ disk' = disk ∧
      call' = { call with
        stage := .returned (if ok then some ⟨id, call.batch.numRows⟩ else none) } := by
  cases event with
  | syncDir ok =>
      simp only [Call.step, made] at steps
      cases named : call.partId with
      | none =>
          rw [named] at steps
          cases steps
      | some id =>
          rw [named] at steps
          cases steps
          exact ⟨ok, id, rfl, rfl, rfl, by simp⟩
  | _ => simp [Call.step, made] at steps

/-- A step that is not the syncing. -/
theorem Call.step_other {disk : Disk} {n : Nat} {call : Call} {ok : Bool}
    (going : call.stage ≠ .syncDir) : call.step lz4 schema disk n (.syncDir ok) = none := by
  simp only [Call.step]
  split
  · exact (going ‹_›).elim
  · rfl

variable {before s s' : Table} {i : Nat} {done : List CallEvent} {event : CallEvent} {call : Call}

/-- A step of a call is part of its fate. -/
theorem Fate.step (fate : Fate before.disk done s.disk call) (inv : s.Inv lz4 schema)
    (plain : schema.PlainNames) (small : s.IdsBelow) (atCall : s.calls[i]? = some call)
    (steps : s.step lz4 schema (.call i event) = some s') :
    ∃ call', s'.calls[i]? = some call' ∧ call'.batch = call.batch ∧
      Fate before.disk (done ++ [event]) s'.disk call' := by
  rcases Table.step_cases steps with ⟨same, _⟩ | ⟨_, same, _⟩ |
    ⟨j, what, n, call₁, disk', n', call', same, _, atCall₁, stepped, rfl⟩ | ⟨same, _⟩
  · cases same
  · cases same
  · cases same
    rw [atCall] at atCall₁
    cases atCall₁
    have inside : i < s.calls.length := (List.getElem?_eq_some_iff.mp atCall).1
    have moves := Call.moves_of_step stepped
    refine ⟨call', List.getElem?_set_self inside, moves.batch, ?_⟩
    cases fate with
    | unmade unmade going unreturned synced same =>
        have synced' : .syncDir false ∉ done ++ [event] := by
          rw [List.mem_append, List.mem_singleton]
          rintro (earlier | rfl)
          · exact synced earlier
          · rw [Call.step_other going] at stepped
            cases stepped
        rcases inv.moves_listed small plain atCall moves with ⟨fateSame, stages, listed⟩ |
          ⟨id, _, named, rfl, free, others⟩
        · refine .unmade (fateSame.trans unmade) (stages going).1 (stages going).2 synced' ?_
          exact fun name isListed unexcepted =>
            (listed name isListed).trans (same name isListed unexcepted)
        · refine .made id rfl named ?_ (.inl ⟨synced', .inl rfl⟩) ?_
          · rw [← same _ (listedName_partName id) not_false, free]
          · exact fun name isListed differ =>
              (others name isListed differ).trans (same name isListed not_false)
    | made id made named free fate same =>
        rcases fate with ⟨synced, syncing | returned⟩ | ⟨_, returned⟩
        · obtain ⟨ok, id', rfl, named', rfl, rfl⟩ := Call.step_syncDir syncing stepped
          cases named.symm.trans named'
          refine .made id made named free ?_ same
          cases ok with
          | true => exact .inl ⟨by simp [synced], .inr rfl⟩
          | false => exact .inr ⟨by simp, rfl⟩
        · exact (moves.unreturned _ returned).elim
        · exact (moves.unreturned _ returned).elim
  · cases same

/-- What a call has made of the parts after a run of its own. -/
theorem Fate.run (fate : Fate before.disk done s.disk call) (inv : s.Inv lz4 schema)
    (distinct : schema.Distinct) (plain : schema.PlainNames) (atCall : s.calls[i]? = some call)
    {steps : List CallEvent} (ran : s.run lz4 schema (steps.map (.call i)) = some s')
    (small : s'.IdsBelow) :
    ∃ call', s'.calls[i]? = some call' ∧ call'.batch = call.batch ∧
      Fate before.disk (done ++ steps) s'.disk call' := by
  induction steps generalizing s call done with
  | nil =>
      cases ran
      exact ⟨call, atCall, rfl, by rwa [List.append_nil]⟩
  | cons event rest ih =>
      obtain ⟨between, stepped, ran⟩ := Option.bind_eq_some_iff.mp ran
      have smallBetween : between.IdsBelow := .of_run ran small
      obtain ⟨call₁, atCall₁, sameBatch, fate₁⟩ :=
        fate.step inv plain (.of_step stepped smallBetween) atCall stepped
      obtain ⟨call₂, atCall₂, sameBatch₂, fate₂⟩ :=
        ih fate₁ (inv.step distinct plain stepped smallBetween) atCall₁ ran
      exact ⟨call₂, atCall₂, sameBatch₂.trans sameBatch, by simpa using fate₂⟩

/-- **An insert leaves all or nothing behind, unless the last step fails**, if no column name has a
slash. On a table that any history has led to, let a call of `insert` run to its return, with any
failures. If it returns an error the parts are those before the call, and if it returns the id of
a part, a new part with the batch has been added and the others are as before, exactly when
syncing the table directory has not failed. -/
theorem all_or_nothing_iff {around : Surroundings} {events : List TableEvent} {after : Table}
    {batch : InsertBatch} {steps : List CallEvent} {result : Option PartMetadata}
    (distinct : schema.Distinct) (plain : schema.PlainNames)
    (reached : (Table.fresh around).run lz4 schema events = some before)
    (ran : before.run lz4 schema
      (.insert batch :: steps.map (.call before.calls.length)) = some after)
    (small : after.IdsBelow) (atCall : after.calls[before.calls.length]? = some call)
    (returned : call.stage = .returned result) :
    ((result = none → SameParts schema before.disk after.disk fun _ => False) ∧
      ∀ m, result = some m → partName m.partId ∉ before.disk.listed ∧
        partName m.partId ∈ after.disk.listed ∧
        WrittenPart lz4 schema batch.toRecordBatch (after.disk.part schema (partName m.partId)) ∧
        SameParts schema before.disk after.disk fun name => name = partName m.partId) ↔
      .syncDir false ∉ steps := by
  obtain ⟨begun, stepped, onwards⟩ := Option.bind_eq_some_iff.mp ran
  have smallBegun : begun.IdsBelow := .of_run onwards small
  have inv : before.Inv lz4 schema :=
    (Table.Inv.fresh lz4 schema around).run distinct plain reached (.of_step stepped smallBegun)
  have invBegun := inv.step distinct plain stepped smallBegun
  have invAfter := invBegun.run distinct plain onwards small
  have start : begun.disk = before.disk ∧
      begun.calls[before.calls.length]? = some ⟨batch, none, false, .start⟩ := by
    rcases Table.step_cases stepped with ⟨same, _⟩ | ⟨_, same, _, rfl⟩ |
      ⟨_, _, _, _, _, _, _, same, _⟩ | ⟨same, _⟩
    · cases same
    · cases same
      exact ⟨rfl, by simp⟩
    · cases same
    · cases same
  have first : Fate before.disk [] begun.disk ⟨batch, none, false, .start⟩ :=
    .unmade rfl (by simp) (by simp) (by simp) fun name _ _ => by rw [start.1]
  obtain ⟨call', atCall', sameBatch, fate⟩ := first.run invBegun distinct plain start.2
    onwards small
  cases atCall.symm.trans atCall'
  rw [List.nil_append] at fate
  cases fate with
  | unmade unmade going unreturned synced same =>
      refine iff_of_true ⟨fun _ => same.sameParts plain, fun m some => ?_⟩ synced
      rw [some] at returned
      exact (unreturned m returned).elim
  | made id made named free fate same =>
      obtain ⟨dir, found, whole, files⟩ :=
        invAfter.complete call (List.mem_of_getElem? atCall) id made named
      rw [sameBatch] at whole
      have absent : partName id ∉ before.disk.listed := fun listed => by
        obtain ⟨_, found⟩ := (Disk.mem_listed.mp listed).1
        cases free.symm.trans found
      have present : partName id ∈ after.disk.listed :=
        Disk.mem_listed.mpr ⟨⟨dir, found⟩, listedName_partName id⟩
      rcases fate with ⟨synced, syncing | done⟩ | ⟨unsynced, failed⟩
      · rw [syncing] at returned
        cases returned
      · refine iff_of_true ?_ synced
        rw [done] at returned
        cases returned
        refine ⟨nofun, fun m some => ?_⟩
        cases some
        refine ⟨absent, present, ?_, same.sameParts plain⟩
        rw [Disk.part_eq_contents plain found files]
        exact whole.written distinct
      · refine iff_of_false (fun kept => ?_) fun synced => synced unsynced
        rw [failed] at returned
        cases returned
        exact absent ((kept.1 rfl _ (listedName_partName id) not_false).1.mp present)

end Alone

/-! ## An error although the part is there -/

/-- The steps of a call that writes all files of its only column and the zone map, renames its
directory, and then syncs the table directory, or fails to. -/
def insertSteps (synced : Bool) : List CallEvent :=
  [.reserve, .createDir true] ++ List.replicate 6 (.column 0 100) ++
    [.collect, .zoneMap 0, .zoneMap 100, .zoneMap 0, .rename true, .syncDir synced]

/-- The call returns an error, and there is a part that was not there before. -/
theorem part_added_by_error : ∃ before after call,
    Table.dataDir.run Lz4.literals markSchema [.open] = some before ∧
    before.run Lz4.literals markSchema (.insert oneMark :: (insertSteps false).map (.call 0)) =
      some after ∧
    after.calls[0]? = some call ∧ call.stage = .returned none ∧
    before.disk.listed = [] ∧ after.disk.listed = [partName 0] :=
  ⟨_, _, _, rfl, rfl, rfl, rfl, rfl, rfl⟩

/-- A call that syncs the table directory returns the id of its part. -/
theorem all_or_nothing_iff_synced : ∃ before after,
    Table.dataDir.run Lz4.literals markSchema [.open] = some before ∧
    before.run Lz4.literals markSchema (.insert oneMark :: (insertSteps true).map (.call 0)) =
      some after ∧
    WrittenPart Lz4.literals markSchema oneMark.toRecordBatch
      (after.disk.part markSchema (partName 0)) := by
  obtain ⟨before, after, reached, ran, empty, calls⟩ : ∃ before after,
      Table.dataDir.run Lz4.literals markSchema [.open] = some before ∧
      before.run Lz4.literals markSchema (.insert oneMark :: (insertSteps true).map (.call 0)) =
        some after ∧ before.calls.length = 0 ∧
      after.calls = [⟨oneMark, some 0, true, .returned (some ⟨0, 1⟩)⟩] :=
    ⟨_, _, rfl, rfl, rfl, rfl⟩
  have small : after.IdsBelow := by
    intro call member id named
    rw [calls] at member
    cases List.mem_singleton.mp member
    cases named
    decide
  have kept := (@all_or_nothing_iff _ _ _ _ _ _ _ oneMark (insertSteps true) _ (by decide)
    (by decide) reached (by rw [empty]; exact ran) small (by rw [calls, empty]; rfl) rfl).mpr
      (by simp [insertSteps])
  obtain ⟨_, _, stored, _⟩ := kept.2 ⟨0, 1⟩ rfl
  exact ⟨before, after, reached, ran, stored⟩

end TinyOlap.Storage
