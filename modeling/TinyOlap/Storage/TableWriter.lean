import TinyOlap.Storage.Disk

/-!
# Inserting a batch

An insert checks the batch against the schema, reserves a part id, makes a temporary directory,
writes every column and the zone map, and renames the directory. If no column name has a slash,
an accepted insert adds one part that holds the batch, and leaves the other parts alone, and one
that is not accepted leaves all parts alone. Whatever the names, the zone map of the new part is
that of the batch (`insert_zoned`).
-/

set_option autoImplicit false

namespace TinyOlap.Storage

open Library Encoding Catalog Arrow

structure PartMetadata where
  partId : Nat
  rows : Nat
deriving DecidableEq

/-- A table writer, with the file system around its table directory. -/
structure TableWriter where
  schema : TableSchema
  nextPartId : Nat
  disk : Disk

namespace TableWriter

/-- `TableWriter::open`. -/
def «open» (schema : TableSchema) (disk : Disk) : TableWriter :=
  ⟨schema, TableDir.scanNextPartId disk.entries, disk⟩

/-- A part of the table. -/
def part (w : TableWriter) (id : Nat) : PartDir := w.disk.part w.schema (partName id)

/-- The parts of the table. -/
def parts (w : TableWriter) : List (String × PartDir) := w.disk.parts w.schema

/-- Write all columns and then the zone map. The columns are written in parallel; here they are
written one after the other. -/
def writeFiles (lz4 : Lz4) (schema : TableSchema) (batch : RecordBatch) (disk : Disk)
    (tmpDir : String) : IoResult Unit × Disk :=
  match partTasks lz4 schema batch with
  | .ok tasks => disk.performAll tmpDir (tasks.flatten ++ zoneMapOps (zoneEntries schema batch))
  | .err e => (.err e, disk)
  | .panic => (.panic, disk)

/-- `TableWriter::insert`. A temporary directory that could not be filled is removed; one that
could not be renamed stays. -/
def insert (lz4 : Lz4) (w : TableWriter) (batch : InsertBatch) :
    IoResult PartMetadata × TableWriter :=
  match checkBatch w.schema batch.toRecordBatch with
  | .err e => (.err e, w)
  | .panic => (.panic, w)
  | .ok () =>
      let partId := w.nextPartId
      let tmpDir := tmpName partId
      let nextPartId := (partId + 1) % 2 ^ 32
      match writeFiles lz4 w.schema batch.toRecordBatch (w.disk.createDirAll tmpDir) tmpDir with
      | (.err e, disk) => (.err e, ⟨w.schema, nextPartId, disk.removeDirAll tmpDir⟩)
      | (.panic, disk) => (.panic, ⟨w.schema, nextPartId, disk⟩)
      | (.ok (), disk) =>
          match disk.rename tmpDir (partName partId) with
          | .err e => (.err e, ⟨w.schema, nextPartId, disk⟩)
          | .panic => (.panic, ⟨w.schema, nextPartId, disk⟩)
          | .ok disk => (.ok ⟨partId, batch.numRows⟩, ⟨w.schema, nextPartId, disk⟩)

end TableWriter

/-! ## Writing into one directory -/

namespace Disk

variable {disk disk' : Disk} {dirName : String}

/-- A disk on which only one directory has changed. -/
structure Touches (disk disk' : Disk) (dirName : String) : Prop where
  around : disk'.toSurroundings = disk.toSurroundings
  lookup : ∀ other, other ≠ dirName → disk'.table.lookup other = disk.table.lookup other
  keys : disk'.table.keys.filter (· ≠ dirName) = disk.table.keys.filter (· ≠ dirName)

theorem Touches.refl (disk : Disk) (dirName : String) : disk.Touches disk dirName :=
  ⟨rfl, fun _ _ => rfl, rfl⟩

theorem Touches.trans {disk'' : Disk} (first : disk.Touches disk' dirName)
    (second : disk'.Touches disk'' dirName) : disk.Touches disk'' dirName :=
  ⟨second.around.trans first.around,
    fun other differ => (second.lookup other differ).trans (first.lookup other differ),
    second.keys.trans first.keys⟩

theorem filter_keys_erase (table : TableDir) (dirName : String) :
    (table.erase dirName).keys.filter (· ≠ dirName) = table.keys.filter (· ≠ dirName) := by
  rw [AList.keys_erase, table.keys_nodup.erase_eq_filter, List.filter_filter]
  refine List.filter_congr fun name _ => ?_
  simp

theorem touches_insert (disk : Disk) (dirName : String) (dir : Directory) :
    disk.Touches { disk with table := disk.table.insert dirName dir } dirName where
  around := rfl
  lookup := fun _ differ => AList.lookup_insert_ne differ
  keys := by
    rw [AList.keys_insert, List.filter_cons_of_neg (by simp), ← AList.keys_erase,
      filter_keys_erase]

theorem touches_removeDirAll (disk : Disk) (dirName : String) :
    disk.Touches (disk.removeDirAll dirName) dirName where
  around := rfl
  lookup := fun _ differ => AList.lookup_erase_ne differ
  keys := filter_keys_erase ..

/-- The directory is there after it has been made, and nothing else is changed. -/
theorem createDirAll_spec (disk : Disk) (dirName : String) :
    disk.Touches (disk.createDirAll dirName) dirName ∧
      ∃ dir, (disk.createDirAll dirName).table.lookup dirName = some dir := by
  rw [createDirAll, TableDir.createDirAll]
  split
  · rename_i there
    exact ⟨.refl disk dirName, Option.isSome_iff_exists.mp (AList.lookup_isSome.mpr there)⟩
  · exact ⟨touches_insert .., _, AList.lookup_insert _⟩

/-- Operations on files of plain names change nothing but their directory. -/
theorem performAll_touches {ops : List PartOp} (plain : ∀ op ∈ ops, op.name.Plain) :
    disk.Touches (disk.performAll dirName ops).2 dirName := by
  induction ops generalizing disk with
  | nil => exact .refl disk dirName
  | cons op ops ih =>
      rw [performAll]
      cases done : disk.perform dirName op with
      | ok next =>
          obtain ⟨dir, dir', _, _, rfl⟩ := perform_of_plain (plain op List.mem_cons_self) done
          exact (touches_insert disk dirName dir').trans
            (ih fun other member => plain other (List.mem_cons_of_mem _ member))
      | err e => exact .refl disk dirName
      | panic => exact .refl disk dirName

/-- **A program on files of plain names has its effect** in its directory. -/
theorem performAll_of_plain {ops : List PartOp} (plain : ∀ op ∈ ops, op.name.Plain)
    {dir : Directory} (found : disk.table.lookup dirName = some dir)
    (done : disk.performAll dirName ops = (.ok (), disk')) :
    ∃ dir', disk'.table.lookup dirName = some dir' ∧
      dir'.contents = FileOp.effects dir.contents ops := by
  induction ops generalizing disk dir with
  | nil =>
      cases done
      exact ⟨dir, found, rfl⟩
  | cons op ops ih =>
      rw [performAll] at done
      cases first : disk.perform dirName op with
      | ok next =>
          rw [first] at done
          obtain ⟨dir₁, dir₂, found₁, performed, rfl⟩ :=
            perform_of_plain (plain op List.mem_cons_self) first
          cases found.symm.trans found₁
          obtain ⟨dir', found', effects⟩ := ih
            (fun other member => plain other (List.mem_cons_of_mem _ member))
            (AList.lookup_insert _) done
          refine ⟨dir', found', ?_⟩
          rw [effects, Directory.contents_perform performed]
          rfl
      | err e =>
          rw [first] at done
          cases done
      | panic =>
          rw [first] at done
          cases done

theorem performAll_append {ops more : List PartOp}
    (done : disk.performAll dirName (ops ++ more) = (.ok (), disk')) :
    ∃ between, disk.performAll dirName ops = (.ok (), between) ∧
      between.performAll dirName more = (.ok (), disk') := by
  induction ops generalizing disk with
  | nil => exact ⟨disk, rfl, done⟩
  | cons op ops ih =>
      rw [List.cons_append, performAll] at done
      rw [performAll]
      cases first : disk.perform dirName op with
      | ok next =>
          rw [first] at done
          exact ih done
      | err e =>
          rw [first] at done
          cases done
      | panic =>
          rw [first] at done
          cases done

/-- The paths of operations that are done are accepted. -/
theorem legal_of_performAll {ops : List PartOp}
    (done : disk.performAll dirName ops = (.ok (), disk')) : ∀ op ∈ ops, op.name.Legal := by
  induction ops generalizing disk with
  | nil => simp
  | cons op ops ih =>
      rw [performAll] at done
      cases first : disk.perform dirName op with
      | ok next =>
          rw [first] at done
          refine List.forall_mem_cons.mpr ⟨?_, ih done⟩
          rw [perform] at first
          split at first
          · assumption
          · cases first
      | err e =>
          rw [first] at done
          cases done
      | panic =>
          rw [first] at done
          cases done

/-- What a disk lists does not depend on a directory that is not listed. -/
theorem Touches.listed (touches : disk.Touches disk' dirName) (hidden : ¬ ListedName dirName) :
    disk'.listed = disk.listed := by
  have visible : ∀ table : TableDir, table.keys.filter (fun name => ListedName name) =
      (table.keys.filter (· ≠ dirName)).filter fun name => ListedName name := by
    intro table
    rw [List.filter_filter]
    refine List.filter_congr fun name _ => ?_
    by_cases here : name = dirName
    · simp [here, hidden]
    · simp [here]
  rw [Disk.listed, Disk.listed, List.filter_reverse, List.filter_reverse, visible, touches.keys,
    ← visible]

theorem Touches.parts {schema : TableSchema} (plain : schema.PlainNames)
    (touches : disk.Touches disk' dirName) (hidden : ¬ ListedName dirName) :
    disk'.parts schema = disk.parts schema := by
  rw [Disk.parts, Disk.parts, touches.listed hidden]
  refine List.map_congr_left fun name member => ?_
  have differ : name ≠ dirName := by
    rintro rfl
    exact hidden (by simpa using (List.mem_filter.mp member).2)
  rw [part_congr plain (touches.lookup name differ)]

/-- Every part has a file. -/
def Solid (disk : Disk) : Prop :=
  ∀ name dir, ListedName name → disk.table.lookup name = some dir →
    dir.files.entries.isEmpty = false

theorem solid_fresh (around : Surroundings) : (fresh around).Solid := by
  intro name dir _ found
  simp [fresh] at found

theorem Touches.solid (touches : disk.Touches disk' dirName) (hidden : ¬ ListedName dirName)
    (solid : disk.Solid) : disk'.Solid := by
  intro name dir visible found
  refine solid name dir visible ((touches.lookup name ?_).symm.trans found)
  rintro rfl
  exact hidden visible

/-- A directory with files under the new name is not replaced. -/
theorem rename_eq_ok {old new : String} (renamed : disk.rename old new = .ok disk') :
    ∃ dir, disk.table.lookup old = some dir ∧
      (∀ target, disk.table.lookup new = some target → target.files.entries.isEmpty = true) ∧
      disk' = { disk with table := (disk.table.erase old).insert new dir } := by
  obtain ⟨table, moved, same⟩ := Outcome.bind_eq_ok.mp renamed
  cases same
  unfold TableDir.rename at moved
  split at moved
  · rename_i dir found free
    cases moved
    exact ⟨dir, found, by simp [free], rfl⟩
  · rename_i dir target found there
    split at moved
    · rename_i empty
      cases moved
      refine ⟨dir, found, fun other here => ?_, rfl⟩
      rw [there] at here
      cases here
      exact empty
    · cases moved
  · cases moved

/-- Renaming a directory that is not listed to a name that is adds this to the list. -/
theorem parts_of_rename {schema : TableSchema} (plain : schema.PlainNames) {old new : String}
    {dir : Directory} (hidden : ¬ ListedName old) (shown : ListedName new)
    (renamed : disk' = { disk with table := (disk.table.erase old).insert new dir }) :
    disk'.parts schema = ((disk.parts schema).filter fun part => part.1 ≠ new) ++
      [(new, disk'.part schema new)] := by
  have others : disk'.listed = disk.listed.filter (· ≠ new) ++ [new] := by
    subst renamed
    simp only [Disk.listed, AList.keys_insert, AList.keys_erase, List.reverse_cons,
      List.filter_append, disk.table.keys_nodup.erase_eq_filter,
      (disk.table.keys_nodup.filter _).erase_eq_filter, List.filter_reverse, List.filter_filter]
    congr 1
    · congr 1
      refine List.filter_congr fun name _ => ?_
      by_cases visible : ListedName name
      · have differ : name ≠ old := fun same => hidden (same ▸ visible)
        rw [Bool.eq_iff_iff]
        simp [visible, differ]
      · simp [visible]
    · simp [shown]
  rw [Disk.parts, others, List.map_append, Disk.parts, List.filter_map]
  congr 1
  refine List.map_congr_left fun name member => ?_
  obtain ⟨inside, differ⟩ := List.mem_filter.mp member
  have notNew : name ≠ new := by simpa using differ
  have notOld : name ≠ old := by
    rintro rfl
    exact hidden (by simpa using (List.mem_filter.mp inside).2)
  rw [part_congr plain]
  rw [renamed]
  exact (AList.lookup_insert_ne notNew).trans (AList.lookup_erase_ne notOld)

end Disk

/-! ## What an insert writes -/

section Insert

variable {lz4 : Lz4} {w w' : TableWriter} {batch : InsertBatch} {m : PartMetadata}

theorem partTasks_eq_ok {schema : TableSchema} {batch : RecordBatch}
    {tasks : List (List PartOp)} (made : partTasks lz4 schema batch = .ok tasks) :
    List.Forall₂ (fun entry ops => columnOps lz4 entry = .ok ops)
      (schema.columns.zip batch.columns) tasks :=
  Outcome.mapM_eq_ok made

/-- The tasks are about files of columns. -/
theorem partFile_of_mem_tasks {schema : TableSchema} {batch : RecordBatch}
    {tasks : List (List PartOp)} (made : partTasks lz4 schema batch = .ok tasks) {op : PartOp}
    (member : op ∈ tasks.flatten) : PartFile schema op.name := by
  obtain ⟨ops, inside, here⟩ := List.mem_flatten.mp member
  obtain ⟨entry, paired, task⟩ := exists_of_mem_right (partTasks_eq_ok made) inside
  exact .inr ⟨entry.1, (List.of_mem_zip paired).1, name_of_mem_columnOps task here⟩

theorem plain_of_mem_tasks {schema : TableSchema} (plain : schema.PlainNames) {batch : RecordBatch}
    {tasks : List (List PartOp)} (made : partTasks lz4 schema batch = .ok tasks) :
    ∀ op ∈ tasks.flatten ++ zoneMapOps (zoneEntries schema batch), op.name.Plain := by
  intro op member
  rcases List.mem_append.mp member with task | zone
  · exact (partFile_of_mem_tasks made task).plain plain
  · rw [name_of_mem_zoneMapOps zone]
    trivial

namespace TableWriter

/-- All that an accepted insert has done. -/
theorem insert_cases (accepted : w.insert lz4 batch = (.ok m, w')) :
    checkBatch w.schema batch.toRecordBatch = .ok () ∧ ∃ tasks written dir disk',
      partTasks lz4 w.schema batch.toRecordBatch = .ok tasks ∧
      (w.disk.createDirAll (tmpName w.nextPartId)).performAll (tmpName w.nextPartId)
        (tasks.flatten ++ zoneMapOps (zoneEntries w.schema batch.toRecordBatch)) =
          (.ok (), written) ∧
      written.table.lookup (tmpName w.nextPartId) = some dir ∧
      (∀ target, written.table.lookup (partName w.nextPartId) = some target →
        target.files.entries.isEmpty = true) ∧
      disk' = { written with
        table := (written.table.erase (tmpName w.nextPartId)).insert (partName w.nextPartId) dir } ∧
      m = ⟨w.nextPartId, batch.numRows⟩ ∧
      w' = ⟨w.schema, (w.nextPartId + 1) % 2 ^ 32, disk'⟩ := by
  unfold insert at accepted
  split at accepted
  · cases accepted
  · cases accepted
  · rename_i checked
    simp only at accepted
    split at accepted
    · cases accepted
    · cases accepted
    · rename_i written files
      split at accepted
      · cases accepted
      · cases accepted
      · rename_i disk' renamed
        cases accepted
        obtain ⟨dir, found, free, same⟩ := Disk.rename_eq_ok renamed
        unfold writeFiles at files
        split at files
        · rename_i tasks made
          exact ⟨checked, tasks, written, dir, disk', made, files, found, free, same, rfl, rfl⟩
        · cases files
        · cases files

theorem insert_partId (accepted : w.insert lz4 batch = (.ok m, w')) :
    m = ⟨w.nextPartId, batch.numRows⟩ ∧ w'.schema = w.schema := by
  obtain ⟨_, _, _, _, _, _, _, _, _, _, rfl, rfl⟩ := insert_cases accepted
  exact ⟨rfl, rfl⟩

/-- **The zone map of the new part** is that of the batch, whatever the columns are called. -/
theorem insert_zoned (accepted : w.insert lz4 batch = (.ok m, w')) :
    ZonedPart w.schema batch.toRecordBatch (w'.part m.partId) := by
  obtain ⟨checked, tasks, written, dir, disk', made, files, found, _, rfl, rfl, rfl⟩ :=
    insert_cases accepted
  obtain ⟨between, columns, zone⟩ := Disk.performAll_append files
  have zonePlain : ∀ op ∈ zoneMapOps (zoneEntries w.schema batch.toRecordBatch),
      op.name.Plain := by
    intro op member
    rw [name_of_mem_zoneMapOps member]
    trivial
  -- the temporary directory is still there when the zone map is created
  obtain ⟨before, there⟩ : ∃ before, between.table.lookup (tmpName w.nextPartId) = some before := by
    rw [zoneMapOps, Disk.performAll] at zone
    cases first : between.perform (tmpName w.nextPartId) (.create .zonemap) with
    | ok next =>
        obtain ⟨before, _, there, _⟩ := Disk.perform_of_plain (by trivial) first
        exact ⟨before, there⟩
    | err e =>
        rw [first] at zone
        cases zone
    | panic =>
        rw [first] at zone
        cases zone
  obtain ⟨dir', found', effects⟩ := Disk.performAll_of_plain zonePlain there zone
  cases found.symm.trans found'
  have bytes : dir.contents .zonemap =
      some (zoneMapBytes (zoneEntries w.schema batch.toRecordBatch)) := by
    rw [effects, effects_zoneMapOps]
  have size := dir.sizes _ _ bytes
  unfold PartDir.maxFileBytes at size
  refine zonedPart_of_bytes (checkBatch_eq_ok checked) (fun entry member => ?_) ?_ (by omega)
  · obtain ⟨ops, inside, task⟩ := exists_of_mem_left (partTasks_eq_ok made) member
    obtain ⟨⟨bin, mrk⟩, _, same⟩ := Outcome.bind_eq_ok.mp task
    cases same
    have legal := Disk.legal_of_performAll columns (.create (.bin entry.1.name))
      (List.mem_flatten.mpr ⟨_, inside, List.mem_cons_self⟩)
    have short : (entry.1.name ++ ".bin").utf8ByteSize < 4096 := legal.2.1
    rw [String.utf8ByteSize_append] at short
    change entry.1.name.utf8ByteSize < 2 ^ 16
    omega
  · rw [part, Disk.part, if_pos (.inl rfl), Disk.contents_of_plain (by trivial),
      AList.lookup_insert, Option.bind_some, bytes]

/-- **An accepted insert adds one part, which holds the batch**, if no column name has a slash.
An empty directory of its name is replaced. -/
theorem insert_eq_ok (distinct : w.schema.Distinct) (plain : w.schema.PlainNames)
    (accepted : w.insert lz4 batch = (.ok m, w')) :
    Complete lz4 w.schema batch (w'.part m.partId) ∧
      w'.parts = (w.parts.filter fun part => part.1 ≠ partName m.partId) ++
        [(partName m.partId, w'.part m.partId)] := by
  obtain ⟨checked, tasks, written, dir, disk', made, files, found, _, rfl, rfl, rfl⟩ :=
    insert_cases accepted
  obtain ⟨created, before, there⟩ := Disk.createDirAll_spec w.disk (tmpName w.nextPartId)
  have ops := plain_of_mem_tasks plain made
  obtain ⟨dir', found', effects⟩ := Disk.performAll_of_plain ops there files
  cases found.symm.trans found'
  have touches := created.trans (files ▸ Disk.performAll_touches ops)
  have shows : ∀ {name : FileName}, PartFile w.schema name →
      part ⟨w.schema, (w.nextPartId + 1) % 2 ^ 32, { written with
        table := (written.table.erase (tmpName w.nextPartId)).insert
          (partName w.nextPartId) dir }⟩ w.nextPartId name = dir.contents name := by
    intro name file
    rw [part, Disk.part_of_plain plain]
    simp only [if_pos file, AList.lookup_insert, Option.bind_some]
  constructor
  · refine complete_of_hasColumn (Disk.part_possible plain) distinct checked
      (fun entry member => ?_)
      ?_ fun file present => ?_
    · have inside := (List.of_mem_zip member).1
      have columns := hasColumn_of_tasks (zip_names_nodup distinct (checkBatch_eq_ok checked))
        (partTasks_eq_ok made) before.contents entry member
      refine columns.congr ?_ ?_
      · rw [shows (.inr ⟨entry.1, inside, .inl rfl⟩), effects, FileOp.effects_append]
        exact FileOp.effects_other fun op here => by simp [name_of_mem_zoneMapOps here]
      · rw [shows (.inr ⟨entry.1, inside, .inr rfl⟩), effects, FileOp.effects_append]
        exact FileOp.effects_other fun op here => by simp [name_of_mem_zoneMapOps here]
    · rw [shows (.inl rfl), effects, FileOp.effects_append, effects_zoneMapOps]
    · by_contra other
      rw [part, Disk.part, if_neg other] at present
      cases present
  · refine (Disk.parts_of_rename plain (not_listedName_tmpName _) (listedName_partName _)
      rfl).trans ?_
    rw [touches.parts plain (not_listedName_tmpName _)]
    rfl

/-- An accepted insert leaves the directories of other parts alone. -/
theorem insert_others (plain : w.schema.PlainNames) (accepted : w.insert lz4 batch = (.ok m, w'))
    {name : String} (differ : name ≠ partName m.partId) (visible : ListedName name) :
    w'.disk.table.lookup name = w.disk.table.lookup name := by
  obtain ⟨_, tasks, written, made, disk', ops, files, _, _, rfl, rfl, rfl⟩ :=
    insert_cases accepted
  have touches := (Disk.createDirAll_spec w.disk (tmpName w.nextPartId)).1.trans
    (files ▸ Disk.performAll_touches (plain_of_mem_tasks plain ops))
  have notTmp : name ≠ tmpName w.nextPartId := by
    rintro rfl
    exact not_listedName_tmpName _ visible
  exact (AList.lookup_insert_ne differ).trans
    ((AList.lookup_erase_ne notTmp).trans (touches.lookup name notTmp))

/-- An accepted insert leaves a part alone that has a file. -/
theorem insert_keeps (plain : w.schema.PlainNames) (accepted : w.insert lz4 batch = (.ok m, w'))
    {name : String} {dir : Directory} (visible : ListedName name)
    (found : w.disk.table.lookup name = some dir) (some : dir.files.entries.isEmpty = false) :
    name ≠ partName m.partId ∧ w'.disk.table.lookup name = .some dir := by
  obtain ⟨_, tasks, written, made, disk', ops, files, _, free, _, rfl, _⟩ :=
    insert_cases accepted
  have touches := (Disk.createDirAll_spec w.disk (tmpName w.nextPartId)).1.trans
    (files ▸ Disk.performAll_touches (plain_of_mem_tasks plain ops))
  have notTmp : name ≠ tmpName w.nextPartId := by
    rintro rfl
    exact not_listedName_tmpName _ visible
  have notNew : name ≠ partName w.nextPartId := by
    rintro rfl
    rw [free dir ((touches.lookup _ notTmp).trans found)] at some
    cases some
  exact ⟨notNew, (insert_others plain accepted notNew visible).trans found⟩

/-- A part that is complete has a directory, and this has a file. -/
theorem exists_of_complete (plain : w.schema.PlainNames) {id : Nat}
    (whole : Complete lz4 w.schema batch (w.part id)) :
    ∃ dir, w.disk.table.lookup (partName id) = some dir ∧ dir.files.entries.isEmpty = false := by
  obtain ⟨entries, _, zoned⟩ := Outcome.bind_eq_ok.mp whole.2
  have zone : w.part id .zonemap = some (zoneMapBytes entries.2) := by
    rw [(writeZoneMap_eq_ok zoned).2, PartDir.set_same]
  rw [part, Disk.part_of_plain plain] at zone
  simp only [if_pos (show PartFile w.schema .zonemap from .inl rfl)] at zone
  obtain ⟨dir, found, here⟩ := Option.bind_eq_some_iff.mp zone
  refine ⟨dir, found, ?_⟩
  cases empty : dir.files.entries with
  | nil =>
      have none : dir.contents .zonemap = none := by
        rw [Directory.contents, AList.lookup, empty, List.dlookup_nil]
      rw [none] at here
      cases here
  | cons entry rest => rfl

/-- **An accepted insert keeps its part**, whatever is inserted later. -/
theorem insert_keeps_complete (plain : w.schema.PlainNames)
    (accepted : w.insert lz4 batch = (.ok m, w')) {other : InsertBatch} {id : Nat}
    (whole : Complete lz4 w.schema other (w.part id)) : w'.part id = w.part id := by
  obtain ⟨dir, found, some⟩ := exists_of_complete plain whole
  obtain ⟨_, kept⟩ := insert_keeps plain accepted (listedName_partName id) found some
  rw [part, part, (insert_partId accepted).2]
  exact Disk.part_congr plain (kept.trans found.symm)

/-- **An insert on a table whose parts have files** adds its part behind them. -/
theorem insert_solid (distinct : w.schema.Distinct) (plain : w.schema.PlainNames)
    (accepted : w.insert lz4 batch = (.ok m, w')) (solid : w.disk.Solid) :
    w'.disk.Solid ∧ w'.parts = w.parts ++ [(partName m.partId, w'.part m.partId)] := by
  obtain ⟨whole, parts⟩ := insert_eq_ok distinct plain accepted
  constructor
  · intro name dir visible found
    by_cases new : name = partName m.partId
    · subst new
      obtain ⟨sameId, sameSchema⟩ := insert_partId accepted
      rw [← sameSchema] at whole plain
      obtain ⟨other, there, some⟩ := exists_of_complete plain whole
      cases found.symm.trans there
      exact some
    · exact solid name dir visible (insert_others plain accepted new visible ▸ found)
  · rw [parts, List.filter_eq_self.mpr fun part member => ?_]
    obtain ⟨name, listed, rfl⟩ := List.mem_map.mp member
    obtain ⟨inside, visible⟩ := List.mem_filter.mp listed
    obtain ⟨dir, found⟩ := Option.isSome_iff_exists.mp (AList.lookup_isSome.mpr
      (AList.mem_keys.mpr (List.mem_reverse.mp inside)))
    have shown : ListedName name := by simpa using visible
    simpa using (insert_keeps plain accepted shown found (solid name dir shown found)).1

/-- **An insert that is not accepted leaves the parts alone**, if no column name has a slash. -/
theorem insert_failed (plain : w.schema.PlainNames) {result : IoResult PartMetadata}
    (ran : w.insert lz4 batch = (result, w')) (failed : ∀ m, result ≠ .ok m) :
    w.disk.Touches w'.disk (tmpName w.nextPartId) ∧ w'.schema = w.schema := by
  have created := (Disk.createDirAll_spec w.disk (tmpName w.nextPartId)).1
  have files : ∀ {written : IoResult Unit × Disk},
      writeFiles lz4 w.schema batch.toRecordBatch (w.disk.createDirAll (tmpName w.nextPartId))
        (tmpName w.nextPartId) = written → w.disk.Touches written.2 (tmpName w.nextPartId) := by
    rintro _ rfl
    unfold writeFiles
    split
    · exact created.trans (Disk.performAll_touches (plain_of_mem_tasks plain ‹_›))
    · exact created
    · exact created
  unfold insert at ran
  split at ran
  · cases ran
    exact ⟨.refl .., rfl⟩
  · cases ran
    exact ⟨.refl .., rfl⟩
  · simp only at ran
    split at ran
    · rename_i written
      cases ran
      exact ⟨(files written).trans (Disk.touches_removeDirAll _ _), rfl⟩
    · rename_i written
      cases ran
      exact ⟨files written, rfl⟩
    · rename_i written
      split at ran
      · cases ran
        exact ⟨files written, rfl⟩
      · cases ran
        exact ⟨files written, rfl⟩
      · cases ran
        exact (failed _ rfl).elim

end TableWriter

end Insert

/-! ## One insert after the other -/

/-- Insert batches one after the other, if all are accepted. -/
def insertAll (lz4 : Lz4) : TableWriter → List InsertBatch → Option TableWriter
  | w, [] => some w
  | w, batch :: rest =>
      match w.insert lz4 batch with
      | (.ok _, w) => insertAll lz4 w rest
      | _ => none

section InsertAll

variable {lz4 : Lz4} {w w' : TableWriter} {batches : List InsertBatch}

theorem insertAll_cons {batch : InsertBatch}
    (accepted : insertAll lz4 w (batch :: batches) = some w') :
    ∃ m between, w.insert lz4 batch = (.ok m, between) ∧
      insertAll lz4 between batches = some w' := by
  rw [insertAll] at accepted
  split at accepted
  · exact ⟨_, _, ‹_›, accepted⟩
  · cases accepted

/-- **Accepted inserts add one part each**, in order. -/
theorem insertAll_parts (distinct : w.schema.Distinct) (plain : w.schema.PlainNames)
    (solid : w.disk.Solid) (accepted : insertAll lz4 w batches = some w') :
    ∃ added, w'.parts = w.parts ++ added ∧
      List.Forall₂ (fun (batch : InsertBatch) (entry : String × PartDir) =>
        WrittenPart lz4 w.schema batch.toRecordBatch entry.2) batches added := by
  induction batches generalizing w with
  | nil =>
      cases accepted
      exact ⟨[], (List.append_nil _).symm, .nil⟩
  | cons batch batches ih =>
      obtain ⟨m, between, first, later⟩ := insertAll_cons accepted
      obtain ⟨solid', parts⟩ := TableWriter.insert_solid distinct plain first solid
      have whole := (TableWriter.insert_eq_ok distinct plain first).1
      have schema := (TableWriter.insert_partId first).2
      obtain ⟨added, all, each⟩ := ih (schema ▸ distinct) (schema ▸ plain) solid' later
      refine ⟨(partName m.partId, between.part m.partId) :: added, ?_,
        .cons (whole.written distinct) (schema ▸ each)⟩
      rw [all, parts, List.append_assoc, List.singleton_append]

/-- A part that is complete stays as it is. -/
theorem insertAll_keeps (plain : w.schema.PlainNames) (accepted : insertAll lz4 w batches = some w')
    {batch : InsertBatch} {id : Nat} (whole : Complete lz4 w.schema batch (w.part id)) :
    w'.part id = w.part id := by
  induction batches generalizing w with
  | nil =>
      cases accepted
      rfl
  | cons other batches ih =>
      obtain ⟨m, between, first, later⟩ := insertAll_cons accepted
      have kept := TableWriter.insert_keeps_complete plain first whole
      have schema := (TableWriter.insert_partId first).2
      rw [← kept, ← schema] at whole
      exact (ih (schema ▸ plain) later whole).trans kept

end InsertAll

/-! ## A table with one column -/

def numberSchema : TableSchema := ⟨"t", [⟨"a", .int .i8⟩]⟩

/-- The values 5 and 9. -/
def fiveAndNine : InsertBatch where
  fields := [⟨"a", .data (.int .i8)⟩]
  columns := [⟨.data (.int .i8), [MachineInt.wrap true 7 5, MachineInt.wrap true 7 9]⟩]
  numRows := 2
  typed := rfl
  lengths := by decide
  offsets := by decide

end TinyOlap.Storage
