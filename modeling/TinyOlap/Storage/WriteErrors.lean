import TinyOlap.Storage.TableWriter

/-!
# What can refuse a batch

A batch whose columns have the types of the schema passes all checks of an insert, and
encoding it cannot fail. What is left are the refusals of the file system: a path that is not
accepted or leads nowhere, a directory in the place of a file, a file beyond the greatest file
offset, and a part that is there already.
-/

set_option autoImplicit false

namespace TinyOlap.Storage

open Library Encoding Catalog Arrow

/-- A refusal of the file system. -/
def IoError.OfFileSystem (e : IoError) : Prop :=
  e ∈ [notFound, isADirectory, fileTooLarge, nameTooLong, directoryNotEmpty, nulInName]

/-! ## Operations -/

theorem FileName.refusal_ofFileSystem (name : FileName) : name.refusal.OfFileSystem := by
  unfold refusal
  split <;> simp [IoError.OfFileSystem]

theorem Directory.perform_failsOnly (dir : Directory) (op : PartOp) :
    (dir.perform op).FailsOnly IoError.OfFileSystem := by
  cases op with
  | create name =>
      rw [perform]
      split
      · trivial
      · exact name.refusal_ofFileSystem
  | write name offset bytes =>
      rw [perform]
      split
      · trivial
      · simp only
        split
        · split
          · trivial
          · exact List.mem_of_getElem? (show _[2]? = some fileTooLarge from rfl)
        · exact name.refusal_ofFileSystem
  | sync name => trivial

theorem Disk.perform_failsOnly (disk : Disk) (dirName : String) (op : PartOp) :
    (disk.perform dirName op).FailsOnly IoError.OfFileSystem := by
  rw [perform]
  split
  · split
    · exact List.mem_cons_self
    · split
      · exact List.mem_of_getElem? (show _[1]? = some isADirectory from rfl)
      · exact (Directory.perform_failsOnly _ _).bind fun _ _ => trivial
  · exact op.name.refusal_ofFileSystem

theorem Disk.performAll_failsOnly (disk : Disk) (dirName : String) (ops : List PartOp) :
    (disk.performAll dirName ops).1.FailsOnly IoError.OfFileSystem := by
  induction ops generalizing disk with
  | nil => trivial
  | cons op ops ih =>
      have first := disk.perform_failsOnly dirName op
      rw [performAll]
      cases done : disk.perform dirName op with
      | ok next => exact ih next
      | err e =>
          rw [done] at first
          exact first
      | panic =>
          rw [done] at first
          exact first.elim

theorem Disk.rename_failsOnly (disk : Disk) (old new : String) :
    (disk.rename old new).FailsOnly IoError.OfFileSystem := by
  refine Outcome.FailsOnly.bind ?_ fun _ _ => trivial
  unfold TableDir.rename
  split
  · trivial
  · split
    · trivial
    · exact List.mem_of_getElem? (show _[4]? = some directoryNotEmpty from rfl)
  · exact List.mem_cons_self

/-! ## Columns -/

theorem exists_blockBytes {α γ C : Type} {fmt : BlockFormat α γ C} {codec : C}
    {enc : List α → Bytes} (encodes : ∀ b, fmt.encode codec b = .ok (enc b)) (lz4 : Lz4)
    (values : List α) : ∃ bytes, blockBytes fmt codec lz4 values = .ok bytes := by
  obtain ⟨w, written, _⟩ := @writeBlocks_eq _ _ _ fmt codec lz4 enc encodes values
  exact ⟨_, by rw [blockBytes, written, Outcome.ok_bind]⟩

theorem exists_columnFormatBytes {T : Type} [Primitive T] (codec : Codec) (lz4 : Lz4)
    (values : List T) : ∃ bytes, blockBytes (columnFormat T) codec lz4 values = .ok bytes := by
  obtain ⟨enc, spec⟩ := exists_encoded (T := T) codec
  exact exists_blockBytes (fun b => (spec b).2.1) lz4 values

/-- Encoding a column of the type of the schema cannot fail. -/
theorem exists_columnOps (lz4 : Lz4) {col : ColumnSchema} {array : ArrayRef}
    (typed : array.type = toArrow col.dataType) : ∃ ops, columnOps lz4 (col, array) = .ok ops := by
  obtain ⟨bytes, encoded⟩ : ∃ bytes, columnBytes lz4 col array = .ok bytes := by
    obtain ⟨name, dataType⟩ := col
    obtain ⟨type, values⟩ := array
    cases typed
    match dataType with
    | .int t | .f32 | .f64 | .bool =>
        simp only [columnBytes, ArrayRef.downcast_mk, Outcome.orPanic_some, Outcome.ok_bind]
        exact exists_columnFormatBytes _ lz4 values
    | .str =>
        simp only [columnBytes, ArrayRef.downcast_mk, Outcome.orPanic_some, Outcome.ok_bind]
        exact exists_blockBytes (fun _ => rfl) lz4 values
  exact ⟨_, by rw [columnOps, encoded, Outcome.ok_bind]⟩

/-! ## A batch -/

/-- The columns of a batch have the types of the schema, one by one. -/
theorem forall₂_typed {columns : List ColumnSchema} {arrays : List ArrayRef}
    (typed : arrays.map ArrayRef.type = columns.map fun c => toArrow c.dataType) :
    List.Forall₂ (fun (array : ArrayRef) col => array.type = toArrow col.dataType) arrays
      columns := by
  have same : List.Forall₂ (· = ·) (arrays.map ArrayRef.type)
      (columns.map fun c => toArrow c.dataType) := by
    rw [List.forall₂_eq_eq_eq]
    exact typed
  rwa [List.forall₂_map_left_iff, List.forall₂_map_right_iff] at same

theorem checkBatch_of_typed {schema : TableSchema} {batch : RecordBatch}
    (typed : batch.columns.map ArrayRef.type = schema.columns.map fun c => toArrow c.dataType) :
    checkBatch schema batch = .ok () := by
  obtain ⟨sameLength, each⟩ := List.forall₂_iff_zip.mp (forall₂_typed typed)
  rw [checkBatch, if_neg (not_not.mpr sameLength), Outcome.forM_eq_ok]
  rintro ⟨array, col⟩ member
  exact if_pos (each member)

theorem TableWriter.writeFiles_failsOnly (lz4 : Lz4) {schema : TableSchema} {batch : RecordBatch}
    (typed : batch.columns.map ArrayRef.type = schema.columns.map fun c => toArrow c.dataType)
    (disk : Disk) (tmpDir : String) :
    (writeFiles lz4 schema batch disk tmpDir).1.FailsOnly IoError.OfFileSystem := by
  obtain ⟨_, each⟩ := List.forall₂_iff_zip.mp (forall₂_typed typed).flip
  obtain ⟨tasks, made⟩ := Outcome.mapM_isOk_iff.mpr
    fun entry (member : entry ∈ schema.columns.zip batch.columns) =>
      exists_columnOps lz4 (each member)
  rw [writeFiles, partTasks, made]
  exact disk.performAll_failsOnly tmpDir _

/-- **Only the file system refuses a batch** whose columns have the types of the schema. -/
theorem insert_failsOnly (lz4 : Lz4) (w : TableWriter) {batch : InsertBatch}
    (typed : batch.columns.map ArrayRef.type = w.schema.columns.map fun c => toArrow c.dataType) :
    (w.insert lz4 batch).1.FailsOnly IoError.OfFileSystem := by
  have files := TableWriter.writeFiles_failsOnly lz4 typed
    (w.disk.createDirAll (tmpName w.nextPartId)) (tmpName w.nextPartId)
  simp only [TableWriter.insert, checkBatch_of_typed typed]
  split
  · rename_i written
    rw [written] at files
    exact files
  · rename_i written
    rw [written] at files
    exact files
  · rename_i disk _
    have moved := disk.rename_failsOnly (tmpName w.nextPartId) (partName w.nextPartId)
    split
    · rename_i renamed
      rw [renamed] at moved
      exact moved
    · rename_i renamed
      rw [renamed] at moved
      exact moved
    · trivial

end TinyOlap.Storage
