import TinyOlap.Storage.TableWriter

/-!
# Inserts, step by step

Any number of insert calls run at the same time on one table writer. Here each of them goes
on step by step: it checks its batch and reserves a part id, makes a temporary directory,
lets one task for each column write the files of the column, writes the zone map, renames the
directory and syncs the table directory. Every step can fail, with the clean-up that the
source has there, the process can crash between any two steps, and a new process can open
the table directory as the old one left it.
-/

set_option autoImplicit false

namespace TinyOlap.Storage

open Library Encoding Catalog Arrow

/-! ## A call -/

/-- How far a call has come. -/
inductive Stage where
  | start
  | createDir
  /-- What the tasks of the columns still have to do, and whether one has failed. -/
  | columns (pending : List (List PartOp)) (failed : Bool)
  | zoneMap (pending : List PartOp)
  | syncDir
  /-- The temporary directory is being removed. -/
  | cleanup
  /-- What the call has returned, if not an error. -/
  | returned (result : Option PartMetadata)
  /-- The process of the call has crashed. -/
  | lost

/-- A call of `insert`: its batch, the part id it has reserved, whether it has renamed its
directory, and how far it has come. -/
structure Call where
  batch : InsertBatch
  partId : Option Nat
  renamed : Bool
  stage : Stage

/-- What can happen to a call. -/
inductive CallEvent where
  /-- Check the batch and reserve a part id. -/
  | reserve
  | createDir (ok : Bool)
  /-- The task of a column does its next operation, or so many bytes of it. -/
  | column (task chunk : Nat)
  | columnFails (task : Nat)
  /-- A task that has not begun is given up once another one has failed. -/
  | columnSkips (task : Nat)
  /-- All tasks have ended. -/
  | collect
  | zoneMap (chunk : Nat)
  | zoneMapFails
  | rename (ok : Bool)
  | syncDir (ok : Bool)
  /-- `remove_dir_all` removes a file. -/
  | removeFile (name : FileName)
  | removeDir
  /-- `remove_dir_all` returns, and with it the call. -/
  | removed

/-- Do the next operation of a program in a directory, or so many bytes of it. -/
def performNext (disk : Disk) (dirName : String) (op : PartOp) (chunk : Nat) : Option Disk :=
  match disk.perform dirName (op.begun chunk) with
  | .ok disk => some disk
  | _ => none

theorem performNext_eq_some {disk disk' : Disk} {dirName : String} {op : PartOp} {chunk : Nat} :
    performNext disk dirName op chunk = some disk' ↔
      disk.perform dirName (op.begun chunk) = .ok disk' := by
  unfold performNext
  cases disk.perform dirName (op.begun chunk) <;> simp

namespace Call

/-- One step of a call, with the part id that the writer would hand out next. Reserving an id
is the only step that changes that: `fetch_add`. -/
def step (lz4 : Lz4) (schema : TableSchema) (disk : Disk) (next : Nat) (call : Call) :
    CallEvent → Option (Disk × Nat × Call)
  | .reserve =>
      match call.stage, call.partId with
      | .start, none =>
          match checkBatch schema call.batch.toRecordBatch with
          | .ok () =>
              some (disk, (next + 1) % 2 ^ 32, { call with partId := next, stage := .createDir })
          | _ => some (disk, next, { call with stage := .returned none })
      | _, _ => none
  | .createDir ok =>
      match call.stage, call.partId with
      | .createDir, some id =>
          if ok then
            match partTasks lz4 schema call.batch.toRecordBatch with
            | .ok pending =>
                some (disk.createDirAll (tmpName id), next,
                  { call with stage := .columns pending false })
            | _ => none
          else some (disk, next, { call with stage := .returned none })
      | _, _ => none
  | .column task chunk =>
      match call.stage, call.partId with
      | .columns pending failed, some id =>
          match pending[task]? with
          | some (op :: ops) =>
              (performNext disk (tmpName id) op chunk).map fun disk =>
                (disk, next,
                  { call with stage := .columns (pending.set task (op.rest chunk ++ ops)) failed })
          | _ => none
      | _, _ => none
  | .columnFails task =>
      match call.stage with
      | .columns pending _ =>
          match pending[task]? with
          | some (_ :: _) =>
              some (disk, next, { call with stage := .columns (pending.set task []) true })
          | _ => none
      | _ => none
  | .columnSkips task =>
      match call.stage with
      | .columns pending true =>
          match pending[task]? with
          | some (.create (.bin _) :: _) =>
              some (disk, next, { call with stage := .columns (pending.set task []) true })
          | _ => none
      | _ => none
  | .collect =>
      match call.stage with
      | .columns pending failed =>
          if pending.all List.isEmpty then
            let ops := zoneMapOps (zoneEntries schema call.batch.toRecordBatch)
            some (disk, next, { call with stage := if failed then .cleanup else .zoneMap ops })
          else none
      | _ => none
  | .zoneMap chunk =>
      match call.stage, call.partId with
      | .zoneMap (op :: ops), some id =>
          (performNext disk (tmpName id) op chunk).map fun disk =>
            (disk, next, { call with stage := .zoneMap (op.rest chunk ++ ops) })
      | _, _ => none
  | .zoneMapFails =>
      match call.stage with
      | .zoneMap (_ :: _) => some (disk, next, { call with stage := .cleanup })
      | _ => none
  | .rename ok =>
      match call.stage, call.partId with
      | .zoneMap [], some id =>
          if ok then
            match disk.rename (tmpName id) (partName id) with
            | .ok disk => some (disk, next, { call with renamed := true, stage := .syncDir })
            | _ => none
          else some (disk, next, { call with stage := .returned none })
      | _, _ => none
  | .syncDir ok =>
      match call.stage, call.partId with
      | .syncDir, some id =>
          some (disk, next,
            { call with stage := .returned (if ok then some ⟨id, call.batch.numRows⟩ else none) })
      | _, _ => none
  | .removeFile name =>
      match call.stage, call.partId with
      | .cleanup, some id =>
          (disk.table.lookup (tmpName id)).map fun dir =>
            ({ disk with table := disk.table.insert (tmpName id) (dir.remove name) }, next, call)
      | _, _ => none
  | .removeDir =>
      match call.stage, call.partId with
      | .cleanup, some id => some (disk.removeDirAll (tmpName id), next, call)
      | _, _ => none
  | .removed =>
      match call.stage with
      | .cleanup => some (disk, next, { call with stage := .returned none })
      | _ => none

/-- What a step makes of the disk, of the next part id and of the call. -/
inductive Moves (lz4 : Lz4) (schema : TableSchema) (disk : Disk) (next : Nat) (call : Call) :
    Disk → Nat → Call → Prop
  | reserve (begun : call.stage = .start) (unnamed : call.partId = none)
      (checked : checkBatch schema call.batch.toRecordBatch = .ok ()) :
      Moves lz4 schema disk next call disk ((next + 1) % 2 ^ 32)
        { call with partId := some next, stage := .createDir }
  | makeDir (id : Nat) (pending : List (List PartOp)) (begun : call.stage = .createDir)
      (named : call.partId = some id)
      (tasks : partTasks lz4 schema call.batch.toRecordBatch = .ok pending) :
      Moves lz4 schema disk next call (disk.createDirAll (tmpName id)) next
        { call with stage := .columns pending false }
  | column (id task chunk : Nat) (pending : List (List PartOp)) (failed : Bool) (op : PartOp)
      (ops : List PartOp) (disk' : Disk) (begun : call.stage = .columns pending failed)
      (named : call.partId = some id) (here : pending[task]? = some (op :: ops))
      (done : disk.perform (tmpName id) (op.begun chunk) = .ok disk') :
      Moves lz4 schema disk next call disk' next
        { call with stage := .columns (pending.set task (op.rest chunk ++ ops)) failed }
  | giveUp (task : Nat) (pending : List (List PartOp)) (failed : Bool)
      (begun : call.stage = .columns pending failed) :
      Moves lz4 schema disk next call disk next
        { call with stage := .columns (pending.set task []) true }
  | collect (pending : List (List PartOp)) (begun : call.stage = .columns pending false)
      (ended : ∀ ops ∈ pending, ops = []) :
      Moves lz4 schema disk next call disk next
        { call with stage := .zoneMap (zoneMapOps (zoneEntries schema call.batch.toRecordBatch)) }
  | zoneMap (id chunk : Nat) (op : PartOp) (ops : List PartOp) (disk' : Disk)
      (begun : call.stage = .zoneMap (op :: ops)) (named : call.partId = some id)
      (done : disk.perform (tmpName id) (op.begun chunk) = .ok disk') :
      Moves lz4 schema disk next call disk' next
        { call with stage := .zoneMap (op.rest chunk ++ ops) }
  | rename (id : Nat) (disk' : Disk) (begun : call.stage = .zoneMap [])
      (named : call.partId = some id)
      (done : disk.rename (tmpName id) (partName id) = .ok disk') :
      Moves lz4 schema disk next call disk' next { call with renamed := true, stage := .syncDir }
  | fail (begun : (∃ pending failed, call.stage = .columns pending failed) ∨
        ∃ ops, call.stage = .zoneMap ops) :
      Moves lz4 schema disk next call disk next { call with stage := .cleanup }
  | removeFile (id : Nat) (name : FileName) (dir : Directory) (begun : call.stage = .cleanup)
      (named : call.partId = some id) (present : disk.table.lookup (tmpName id) = some dir) :
      Moves lz4 schema disk next call
        { disk with table := disk.table.insert (tmpName id) (dir.remove name) } next call
  | removeDir (id : Nat) (begun : call.stage = .cleanup) (named : call.partId = some id) :
      Moves lz4 schema disk next call (disk.removeDirAll (tmpName id)) next call
  | quit (begun : call.stage = .start ∨ call.stage = .createDir ∨ call.stage = .zoneMap [] ∨
        call.stage = .cleanup) :
      Moves lz4 schema disk next call disk next { call with stage := .returned none }
  | sync (id : Nat) (ok : Bool) (begun : call.stage = .syncDir) (named : call.partId = some id) :
      Moves lz4 schema disk next call disk next
        { call with stage := .returned (if ok then some ⟨id, call.batch.numRows⟩ else none) }

/-- All that a step can do. -/
theorem moves_of_step {lz4 : Lz4} {schema : TableSchema} {disk disk' : Disk}
    {next next' : Nat} {call call' : Call} {event : CallEvent}
    (steps : call.step lz4 schema disk next event = some (disk', next', call')) :
    Moves lz4 schema disk next call disk' next' call' := by
  cases event with
  | reserve =>
      simp only [step] at steps
      split at steps
      · split at steps
        · cases steps
          exact .reserve ‹_› ‹_› ‹_›
        · cases steps
          exact .quit (.inl ‹_›)
      · cases steps
  | createDir ok =>
      simp only [step] at steps
      split at steps
      · split at steps
        · split at steps
          · cases steps
            exact .makeDir _ _ ‹_› ‹_› ‹_›
          · cases steps
        · cases steps
          exact .quit (.inr (.inl ‹_›))
      · cases steps
  | column task chunk =>
      simp only [step] at steps
      split at steps
      · split at steps
        · obtain ⟨disk₁, done, same⟩ := Option.map_eq_some_iff.mp steps
          cases same
          exact .column _ task chunk _ _ _ _ _ ‹_› ‹_› ‹_› (performNext_eq_some.mp done)
        · cases steps
      · cases steps
  | columnFails task =>
      simp only [step] at steps
      split at steps
      · split at steps
        · cases steps
          exact .giveUp task _ _ ‹_›
        · cases steps
      · cases steps
  | columnSkips task =>
      simp only [step] at steps
      split at steps
      · split at steps
        · cases steps
          exact .giveUp task _ _ ‹_›
        · cases steps
      · cases steps
  | collect =>
      simp only [step] at steps
      split at steps
      · rename_i pending failed begun
        split at steps
        · rename_i ended
          cases steps
          cases failed with
          | true => exact .fail (.inl ⟨_, _, begun⟩)
          | false =>
              exact .collect pending begun fun ops member =>
                List.isEmpty_iff.mp (List.all_eq_true.mp ended ops member)
        · cases steps
      · cases steps
  | zoneMap chunk =>
      simp only [step] at steps
      split at steps
      · obtain ⟨disk₁, done, same⟩ := Option.map_eq_some_iff.mp steps
        cases same
        exact .zoneMap _ chunk _ _ _ ‹_› ‹_› (performNext_eq_some.mp done)
      · cases steps
  | zoneMapFails =>
      simp only [step] at steps
      split at steps
      · cases steps
        exact .fail (.inr ⟨_, ‹_›⟩)
      · cases steps
  | rename ok =>
      simp only [step] at steps
      split at steps
      · split at steps
        · split at steps
          · cases steps
            exact .rename _ _ ‹_› ‹_› ‹_›
          · cases steps
        · cases steps
          exact .quit (.inr (.inr (.inl ‹_›)))
      · cases steps
  | syncDir ok =>
      simp only [step] at steps
      split at steps
      · cases steps
        exact .sync _ ok ‹_› ‹_›
      · cases steps
  | removeFile name =>
      simp only [step] at steps
      split at steps
      · obtain ⟨dir, present, same⟩ := Option.map_eq_some_iff.mp steps
        cases same
        exact .removeFile _ name dir ‹_› ‹_› present
      · cases steps
  | removeDir =>
      simp only [step] at steps
      split at steps
      · cases steps
        exact .removeDir _ ‹_› ‹_›
      · cases steps
  | removed =>
      simp only [step] at steps
      split at steps
      · cases steps
        exact .quit (.inr (.inr (.inr ‹_›)))
      · cases steps

/-- A crash of the process: a call that has not returned is lost. -/
def lose (call : Call) : Call :=
  match call.stage with
  | .returned _ => call
  | _ => { call with stage := .lost }

end Call

/-! ## The table -/

/-- The file system, the part id that the table writer will hand out next, if there is a
table writer, and all calls so far. -/
structure Table where
  disk : Disk
  next : Option Nat
  calls : List Call

/-- A new table, before it is opened. -/
def Table.fresh (around : Surroundings) : Table := ⟨.fresh around, none, []⟩

inductive TableEvent where
  /-- `TableWriter::open`. -/
  | «open»
  /-- A call of `insert` begins. -/
  | insert (batch : InsertBatch)
  | call (i : Nat) (event : CallEvent)
  | crash

namespace Table

variable (lz4 : Lz4) (schema : TableSchema)

def step (s : Table) : TableEvent → Option Table
  | .open =>
      match s.next with
      | none => some { s with next := some (TableDir.scanNextPartId s.disk.entries) }
      | some _ => none
  | .insert batch =>
      match s.next with
      | some _ => some { s with calls := s.calls ++ [⟨batch, none, false, .start⟩] }
      | none => none
  | .call i event =>
      match s.next, s.calls[i]? with
      | some next, some call =>
          (call.step lz4 schema s.disk next event).map fun (disk, next, call) =>
            ⟨disk, some next, s.calls.set i call⟩
      | _, _ => none
  | .crash =>
      match s.next with
      | some _ => some { s with next := none, calls := s.calls.map Call.lose }
      | none => none

/-- What happens to a table, event by event. -/
def run (s : Table) (events : List TableEvent) : Option Table := events.foldlM (step lz4 schema) s

end Table

end TinyOlap.Storage
