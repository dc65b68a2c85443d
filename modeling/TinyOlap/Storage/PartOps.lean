import TinyOlap.Library.FileOps
import TinyOlap.Storage.PartWriter

/-!
# The operations of an insert on files

What an insert writes is done in operations on files: a task for each column creates its two
files, fills them and syncs them, and behind all tasks the zone map is written. Once all of
them are done, and each file is one of its own, the directory is what `writePart` makes of
the batch (`complete_of_hasColumn`).
-/

set_option autoImplicit false

namespace TinyOlap.Storage

open Library Encoding Catalog Arrow

/-- An operation on a file of a part. -/
abbrev PartOp : Type := FileOp FileName UInt8

/-! ## What is done -/

/-- The contents of the data file and of the mark file of a column of blocks. -/
def blockBytes {α γ C : Type} (fmt : BlockFormat α γ C) (codec : C) (lz4 : Lz4)
    (values : List α) : IoResult (Bytes × Bytes) := do
  let w ← writeBlocks fmt codec lz4 values
  .ok (w.bin, markBytes w.marks)

/-- The contents of the two files of a column. -/
def columnBytes (lz4 : Lz4) (col : ColumnSchema) (array : ArrayRef) : IoResult (Bytes × Bytes) :=
  match col.dataType with
  | .int t => do
      let values ← .orPanic (array.downcast (.data (.int t)))
      blockBytes (columnFormat t.Native) (codecFor col) lz4 values
  | .f32 => do
      let values ← .orPanic (array.downcast (.data .f32))
      blockBytes (columnFormat F32) (codecFor col) lz4 values
  | .f64 => do
      let values ← .orPanic (array.downcast (.data .f64))
      blockBytes (columnFormat F64) (codecFor col) lz4 values
  | .bool => do
      let values ← .orPanic (array.downcast (.data .bool))
      blockBytes (columnFormat Bool) (codecFor col) lz4 values
  | .str => do
      let values ← .orPanic (array.downcast (.data .str))
      blockBytes stringFormat .plain lz4 values

/-- The task of a column: create both files, fill and sync the data file, then the mark
file. -/
def columnOps (lz4 : Lz4) (entry : ColumnSchema × ArrayRef) : IoResult (List PartOp) := do
  let (bin, mrk) ← columnBytes lz4 entry.1 entry.2
  let name := entry.1.name
  .ok [.create (.bin name), .create (.mrk name), .write (.bin name) 0 bin, .sync (.bin name),
    .write (.mrk name) 0 mrk, .sync (.mrk name)]

/-- The tasks of all columns. -/
def partTasks (lz4 : Lz4) (schema : TableSchema) (batch : RecordBatch) :
    IoResult (List (List PartOp)) :=
  (schema.columns.zip batch.columns).mapM (columnOps lz4)

/-- Create, fill and sync the zone map. -/
def zoneMapOps (entries : List EncodedZoneMapEntry) : List PartOp :=
  [.create .zonemap, .write .zonemap 0 (zoneMapBytes entries), .sync .zonemap]

/-! ## Columns that are there -/

/-- The files of parts of this schema. -/
def PartFile (schema : TableSchema) (file : FileName) : Prop :=
  file = .zonemap ∨ ∃ col ∈ schema.columns, file = .bin col.name ∨ file = .mrk col.name

instance (schema : TableSchema) (file : FileName) : Decidable (PartFile schema file) :=
  inferInstanceAs (Decidable (_ ∨ ∃ col ∈ _, _))

/-- The two files of a column have their contents. -/
def HasColumn (lz4 : Lz4) (contents : PartDir) (entry : ColumnSchema × ArrayRef) : Prop :=
  ∃ bin mrk, columnBytes lz4 entry.1 entry.2 = .ok (bin, mrk) ∧
    contents (.bin entry.1.name) = some bin ∧ contents (.mrk entry.1.name) = some mrk

theorem HasColumn.congr {lz4 : Lz4} {contents contents' : PartDir}
    {entry : ColumnSchema × ArrayRef} (has : HasColumn lz4 contents entry)
    (bin : contents' (.bin entry.1.name) = contents (.bin entry.1.name))
    (mrk : contents' (.mrk entry.1.name) = contents (.mrk entry.1.name)) :
    HasColumn lz4 contents' entry := by
  obtain ⟨binBytes, mrkBytes, encoded, hasBin, hasMrk⟩ := has
  exact ⟨binBytes, mrkBytes, encoded, bin.trans hasBin, mrk.trans hasMrk⟩

/-- A task is about the two files of its column. -/
theorem name_of_mem_columnOps {lz4 : Lz4} {entry : ColumnSchema × ArrayRef} {ops : List PartOp}
    (task : columnOps lz4 entry = .ok ops) {op : PartOp} (member : op ∈ ops) :
    op.name = .bin entry.1.name ∨ op.name = .mrk entry.1.name := by
  obtain ⟨⟨bin, mrk⟩, _, same⟩ := Outcome.bind_eq_ok.mp task
  cases same
  revert op
  simp [FileOp.name]

/-- A task leaves the contents of its column, whatever was there before. -/
theorem hasColumn_of_columnOps {lz4 : Lz4} {entry : ColumnSchema × ArrayRef} {ops : List PartOp}
    (task : columnOps lz4 entry = .ok ops) (contents : FileName → Option Bytes) :
    HasColumn lz4 (FileOp.effects contents ops) entry := by
  obtain ⟨⟨bin, mrk⟩, encoded, same⟩ := Outcome.bind_eq_ok.mp task
  cases same
  refine ⟨bin, mrk, encoded, ?_, ?_⟩
  · simp [FileOp.effects, FileOp.effect, FileOp.put]
  · simp [FileOp.effects, FileOp.effect, FileOp.put]

/-- The zone map is written whatever was there before. -/
theorem effects_zoneMapOps (contents : FileName → Option Bytes)
    (entries : List EncodedZoneMapEntry) :
    FileOp.effects contents (zoneMapOps entries) .zonemap = some (zoneMapBytes entries) := by
  simp [zoneMapOps, FileOp.effects, FileOp.effect, FileOp.put]

theorem name_of_mem_zoneMapOps {entries : List EncodedZoneMapEntry} {op : PartOp}
    (member : op ∈ zoneMapOps entries) : op.name = .zonemap := by
  revert op
  simp [zoneMapOps, FileOp.name]

/-- **All tasks together** leave the contents of all columns, if no two of them have the same
name. -/
theorem hasColumn_of_tasks {lz4 : Lz4} {columns : List (ColumnSchema × ArrayRef)}
    (distinct : (columns.map fun entry => entry.1.name).Nodup) {tasks : List (List PartOp)}
    (each : List.Forall₂ (fun entry ops => columnOps lz4 entry = .ok ops) columns tasks)
    (contents : FileName → Option Bytes) :
    ∀ entry ∈ columns, HasColumn lz4 (FileOp.effects contents tasks.flatten) entry := by
  induction each generalizing contents with
  | nil => simp
  | @cons entry ops columns tasks task rest ih =>
      rw [List.map_cons, List.nodup_cons] at distinct
      rw [List.flatten_cons, FileOp.effects_append]
      intro other member
      rcases List.mem_cons.mp member with rfl | later
      · have unnamed : ∀ file, file = .bin other.1.name ∨ file = .mrk other.1.name →
            ∀ op ∈ tasks.flatten, file ≠ op.name := by
          intro file own op inside
          obtain ⟨ops', there, here⟩ := List.mem_flatten.mp inside
          obtain ⟨entry', member', task'⟩ := exists_of_mem_right rest there
          have differ : entry'.1.name ≠ other.1.name := fun same =>
            distinct.1 (List.mem_map.mpr ⟨entry', member', same⟩)
          rcases own with rfl | rfl <;>
            rcases name_of_mem_columnOps task' here with names | names <;>
            rw [names] <;> simp [differ.symm]
        exact (hasColumn_of_columnOps task contents).congr
          (FileOp.effects_other (unnamed _ (.inl rfl)))
          (FileOp.effects_other (unnamed _ (.inr rfl)))
      · exact ih distinct.2 _ other later

/-! ## What the tasks write is what a part is -/

/-- What a file system can hold. -/
def PartDir.Possible (dir : PartDir) : Prop :=
  ∀ name contents, dir name = some contents → name.Legal ∧ contents.length ≤ maxFileBytes

/-- The batch was accepted, and a directory is what it is written as. -/
def Complete (lz4 : Lz4) (schema : TableSchema) (batch : InsertBatch) (dir : PartDir) : Prop :=
  checkBatch schema batch.toRecordBatch = .ok () ∧
    writePart lz4 schema batch.toRecordBatch = .ok dir

theorem Complete.written {lz4 : Lz4} {schema : TableSchema} {batch : InsertBatch} {dir : PartDir}
    (whole : Complete lz4 schema batch dir) (distinct : schema.Distinct) :
    WrittenPart lz4 schema batch.toRecordBatch dir :=
  writePart_eq_ok distinct (checkBatch_eq_ok whole.1) whole.2

theorem writeBlockColumn_of_blockBytes {α γ C : Type} {fmt : BlockFormat α γ C} {codec : C}
    {lz4 : Lz4} {values : List α} {bin mrk : Bytes}
    (encoded : blockBytes fmt codec lz4 values = .ok (bin, mrk)) {name : String}
    (legalBin : (FileName.bin name).Legal) (legalMrk : (FileName.mrk name).Legal)
    (sizeBin : bin.length ≤ PartDir.maxFileBytes) (sizeMrk : mrk.length ≤ PartDir.maxFileBytes)
    (dir : PartDir) :
    ∃ dir', writeBlockColumn fmt codec lz4 dir name values = .ok dir' ∧
      dir' (.bin name) = some bin ∧ dir' (.mrk name) = some mrk ∧
      ∀ file, file ≠ .bin name → file ≠ .mrk name → dir' file = dir file := by
  obtain ⟨w, blocks, same⟩ := Outcome.bind_eq_ok.mp encoded
  cases same
  refine ⟨(((dir.set (.bin name) []).set (.mrk name) []).set (.bin name) w.bin).set (.mrk name)
    (markBytes w.marks), ?_, ?_, ?_, ?_⟩
  · rw [writeBlockColumn, PartDir.create, if_pos legalBin, Outcome.ok_bind, PartDir.create,
      if_pos legalMrk, Outcome.ok_bind, blocks, Outcome.ok_bind, PartDir.write, if_pos sizeBin,
      Outcome.ok_bind, PartDir.write, if_pos sizeMrk]
  · rw [PartDir.set_other _ (by simp), PartDir.set_same]
  · rw [PartDir.set_same]
  · intro file notBin notMrk
    rw [PartDir.set_other _ notMrk, PartDir.set_other _ notBin, PartDir.set_other _ notMrk,
      PartDir.set_other _ notBin]

/-- Writing one column writes the contents of its two files. -/
theorem writeOneColumn_of_columnBytes {lz4 : Lz4} {col : ColumnSchema} {array : ArrayRef}
    {bin mrk : Bytes} (encoded : columnBytes lz4 col array = .ok (bin, mrk))
    (legalBin : (FileName.bin col.name).Legal) (legalMrk : (FileName.mrk col.name).Legal)
    (sizeBin : bin.length ≤ PartDir.maxFileBytes) (sizeMrk : mrk.length ≤ PartDir.maxFileBytes)
    (dir : PartDir) :
    ∃ dir', writeOneColumn lz4 dir col array = .ok (dir', encodeZone col array) ∧
      dir' (.bin col.name) = some bin ∧ dir' (.mrk col.name) = some mrk ∧
      ∀ file, file ≠ .bin col.name → file ≠ .mrk col.name → dir' file = dir file := by
  obtain ⟨name, dataType⟩ := col
  -- all types are written alike
  rcases dataType with (_ | _ | _ | _) | _
  all_goals
    obtain ⟨values, cast, blocks⟩ := Outcome.bind_eq_ok.mp encoded
    obtain ⟨dir', written, files⟩ :=
      writeBlockColumn_of_blockBytes blocks legalBin legalMrk sizeBin sizeMrk dir
    have found := Outcome.orPanic_eq_ok.mp cast
    refine ⟨dir', ?_, files⟩
    simp [writeOneColumn, writeColumn, writeStringColumn, encodeZone, found, written]

/-- Writing columns writes what a directory has that holds them. -/
theorem writeColumns_of_hasColumn {lz4 : Lz4} {final : PartDir} (possible : final.Possible)
    {columns : List (ColumnSchema × ArrayRef)}
    (distinct : (columns.map fun entry => entry.1.name).Nodup)
    (has : ∀ entry ∈ columns, HasColumn lz4 final entry) (dir : PartDir) :
    ∃ dir', writeColumns lz4 dir columns =
        .ok (dir', columns.filterMap fun entry => encodeZone entry.1 entry.2) ∧
      (∀ entry ∈ columns, dir' (.bin entry.1.name) = final (.bin entry.1.name) ∧
        dir' (.mrk entry.1.name) = final (.mrk entry.1.name)) ∧
      ∀ file, (∀ entry ∈ columns, file ≠ .bin entry.1.name ∧ file ≠ .mrk entry.1.name) →
        dir' file = dir file := by
  induction columns generalizing dir with
  | nil => exact ⟨dir, rfl, by simp, fun _ _ => rfl⟩
  | cons entry columns ih =>
      obtain ⟨col, array⟩ := entry
      rw [List.map_cons, List.nodup_cons] at distinct
      obtain ⟨bin, mrk, encoded, hasBin, hasMrk⟩ := has (col, array) List.mem_cons_self
      obtain ⟨dir₁, first, bin₁, mrk₁, frame₁⟩ :=
        writeOneColumn_of_columnBytes encoded (possible _ _ hasBin).1 (possible _ _ hasMrk).1
          (possible _ _ hasBin).2 (possible _ _ hasMrk).2 dir
      obtain ⟨dir₂, rest, have₂, frame₂⟩ := ih distinct.2
        (fun e member => has e (List.mem_cons_of_mem _ member)) dir₁
      have others : ∀ e ∈ columns, e.1.name ≠ col.name := fun e member same =>
        distinct.1 (List.mem_map.mpr ⟨e, member, same⟩)
      have bin₂ : dir₂ (.bin col.name) = dir₁ (.bin col.name) :=
        frame₂ _ fun e member => by simpa using (others e member).symm
      have mrk₂ : dir₂ (.mrk col.name) = dir₁ (.mrk col.name) :=
        frame₂ _ fun e member => by simpa using (others e member).symm
      refine ⟨dir₂, ?_, fun e member => ?_, fun file other => ?_⟩
      · rw [writeColumns, first, Outcome.ok_bind]
        simp only [rest, Outcome.ok_bind, List.filterMap_cons]
        cases encodeZone col array <;> rfl
      · rcases List.mem_cons.mp member with rfl | later
        · exact ⟨by rw [bin₂, bin₁, hasBin], by rw [mrk₂, mrk₁, hasMrk]⟩
        · exact have₂ e later
      · have here := other (col, array) List.mem_cons_self
        rw [frame₂ file fun e member => other e (List.mem_cons_of_mem _ member)]
        exact frame₁ file here.1 here.2

/-- **A directory with the files of all columns and the zone map, and no other, is
complete.** -/
theorem complete_of_hasColumn {lz4 : Lz4} {schema : TableSchema} {batch : InsertBatch}
    {dir : PartDir} (possible : dir.Possible) (distinct : schema.Distinct)
    (checked : checkBatch schema batch.toRecordBatch = .ok ())
    (has : ∀ entry ∈ schema.columns.zip batch.columns, HasColumn lz4 dir entry)
    (zone : dir .zonemap = some (zoneMapBytes (zoneEntries schema batch.toRecordBatch)))
    (files : ∀ file, (dir file).isSome → PartFile schema file) :
    Complete lz4 schema batch dir := by
  have typed := checkBatch_eq_ok checked
  obtain ⟨dir', written, have', frame⟩ := writeColumns_of_hasColumn possible
    (zip_names_nodup distinct typed) has .empty
  obtain ⟨legal, size⟩ := possible _ _ zone
  unfold zoneEntries at size zone
  refine ⟨checked, ?_⟩
  rw [writePart, written, Outcome.ok_bind]
  simp only [writeZoneMap]
  rw [PartDir.create, if_pos legal, Outcome.ok_bind, PartDir.write, if_pos size]
  refine congrArg Outcome.ok ?_
  funext file
  by_cases here : file = .zonemap
  · subst here
    rw [PartDir.set_same]
    exact zone.symm
  · rw [PartDir.set_other _ here, PartDir.set_other _ here]
    by_cases column : ∃ entry ∈ schema.columns.zip batch.columns,
        file = .bin entry.1.name ∨ file = .mrk entry.1.name
    · obtain ⟨entry, member, rfl | rfl⟩ := column
      · exact (have' entry member).1
      · exact (have' entry member).2
    · rw [frame file fun entry member => ⟨fun same => column ⟨entry, member, .inl same⟩,
        fun same => column ⟨entry, member, .inr same⟩⟩]
      cases found : dir file with
      | none => rfl
      | some bytes =>
          rcases files file (by rw [found]; rfl) with zonemap | ⟨col, member, same⟩
          · exact (here zonemap).elim
          · have sameLength : batch.columns.length = schema.columns.length := by
              simpa using congrArg List.length typed
            have columns : (schema.columns.zip batch.columns).map Prod.fst = schema.columns :=
              List.map_fst_zip (by omega)
            rw [← columns] at member
            obtain ⟨entry, inside, rfl⟩ := List.mem_map.mp member
            exact (column ⟨entry, inside, same⟩).elim

end TinyOlap.Storage
