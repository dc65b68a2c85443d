import TinyOlap.Execution.StoredRows

/-!
# Columns stay aligned

The blocks of a string column are cut by the bytes of its strings, those of a numeric
column by the width of its values, and both writers may use any of their codecs. Still
granule `i` of every column covers the same rows: a part that is written column by column
reads back, granule by granule and in any order, as the slices of one batch.
-/

set_option autoImplicit false

namespace TinyOlap.Execution

open Library Library.BlockLayout Encoding Catalog Arrow Storage Physical

/-! ## Parts written with any codecs -/

/-- The codecs of a column: one for values of fixed width, one for strings. -/
abbrev CodecChoice : Type := ColumnSchema → Codec × StringCodec

/-- Write a column with the writer of its type. -/
def writeColumnWith (lz4 : Lz4) (codecs : CodecChoice) (partDir : PartDir) (col : ColumnSchema)
    (array : ArrayRef) : IoResult PartDir :=
  match array with
  | ⟨.data (.fixed t), values⟩ => do
      let (partDir, _) ← writeColumn (T := t.Native) lz4 partDir col.name values (codecs col).1
      .ok partDir
  | ⟨.data .str, values⟩ => writeStringColumn lz4 partDir col.name values (codecs col).2
  | ⟨.sumCount, _⟩ => .panic

/-- Write columns one after the other. -/
def writeColumnsWith (lz4 : Lz4) (codecs : CodecChoice) (partDir : PartDir) :
    List (ColumnSchema × ArrayRef) → IoResult PartDir
  | [] => .ok partDir
  | (col, array) :: rest => do
      let partDir ← writeColumnWith lz4 codecs partDir col array
      writeColumnsWith lz4 codecs partDir rest

/-- The blocks of a string array are small enough for their frames. -/
def BlocksFit (lz4 : Lz4) (codec : StringCodec) (array : ArrayRef) : Prop :=
  ∀ values, array = ⟨.data .str, values⟩ → ∀ b ∈ stringBlocks values, BlockFits lz4 codec b

section Written

variable {lz4 : Lz4} {codecs : CodecChoice}

theorem writeColumnWith_eq_ok {partDir partDir' : PartDir} {col : ColumnSchema} {array : ArrayRef}
    (fits : BlocksFit lz4 (codecs col).2 array)
    (written : writeColumnWith lz4 codecs partDir col array = .ok partDir') :
    StoredColumn lz4 partDir' col.name array ∧
      ∀ file, file ≠ .bin col.name → file ≠ .mrk col.name → partDir' file = partDir file := by
  match array with
  | ⟨.data (.fixed t), values⟩ =>
      obtain ⟨⟨dir, entry⟩, columns, last⟩ := Outcome.bind_eq_ok.mp written
      cases last
      obtain ⟨stored, frame, _⟩ := writeColumn_stored t columns
      exact ⟨stored, frame⟩
  | ⟨.data .str, values⟩ =>
      obtain ⟨stored, frame⟩ := stored_of_writeStringColumn (fits values rfl) written
      exact ⟨.str _ values stored, frame⟩
  | ⟨.sumCount, _⟩ => cases written

theorem writeColumnsWith_eq_ok {columns : List (ColumnSchema × ArrayRef)}
    (distinct : (columns.map fun entry => entry.1.name).Nodup)
    (fits : ∀ entry ∈ columns, BlocksFit lz4 (codecs entry.1).2 entry.2) :
    ∀ {partDir partDir' : PartDir}, writeColumnsWith lz4 codecs partDir columns = .ok partDir' →
      (∀ entry ∈ columns, StoredColumn lz4 partDir' entry.1.name entry.2) ∧
        ∀ file, (∀ entry ∈ columns, file ≠ .bin entry.1.name ∧ file ≠ .mrk entry.1.name) →
          partDir' file = partDir file := by
  induction columns with
  | nil =>
      intro partDir partDir' written
      cases written
      exact ⟨by simp, fun _ _ => rfl⟩
  | cons entry columns ih =>
      intro partDir partDir' written
      obtain ⟨col, array⟩ := entry
      rw [List.map_cons, List.nodup_cons] at distinct
      obtain ⟨dir, first, rest⟩ := Outcome.bind_eq_ok.mp written
      obtain ⟨stored, frame⟩ := writeColumnWith_eq_ok (fits (col, array) (by simp)) first
      obtain ⟨storedRest, frameRest⟩ :=
        ih distinct.2 (fun e member => fits e (by simp [member])) rest
      refine ⟨fun e member => ?_, fun file other => ?_⟩
      · rcases List.mem_cons.mp member with rfl | later
        · exact stored.keep (fun d here same => distinct.1 (List.mem_map.mpr ⟨d, here, same⟩))
            frameRest
        · exact storedRest e later
      · rw [frameRest file fun d here => other d (by simp [here])]
        have names := other (col, array) (by simp)
        exact frame file names.1 names.2

/-- A part that was written for the columns of a batch holds the batch. -/
theorem partHolds_of_writeColumnsWith {columns : List ColumnSchema} {whole : RecordBatch}
    {partDir partDir' : PartDir} (distinct : (columns.map ColumnSchema.name).Nodup)
    (fields : whole.fields = columns.map Field.ofColumn)
    (offsets : ∀ a ∈ whole.columns, a.textBytes < 2 ^ 31)
    (fits : ∀ entry ∈ columns.zip whole.columns, BlocksFit lz4 (codecs entry.1).2 entry.2)
    (written : writeColumnsWith lz4 codecs partDir (columns.zip whole.columns) = .ok partDir') :
    PartHolds lz4 columns partDir' whole := by
  have sameLength : columns.length = whole.columns.length := by
    rw [whole.columns_length, fields, List.length_map]
  have names : ((columns.zip whole.columns).map fun entry => entry.1.name) =
      columns.map ColumnSchema.name := by
    rw [show (fun entry : ColumnSchema × ArrayRef => entry.1.name) =
      ColumnSchema.name ∘ Prod.fst from rfl, ← List.map_map,
      List.map_fst_zip (Nat.le_of_eq sameLength)]
  obtain ⟨stored, _⟩ := writeColumnsWith_eq_ok (names ▸ distinct) fits written
  exact ⟨fields, List.forall₂_iff_zip.mpr ⟨sameLength, fun {c a} paired => stored (c, a) paired⟩,
    offsets⟩

end Written

/-! ## Reading in any order -/

/-- Read granules of all columns, in the given order, and make a batch of each. -/
def readBatches (lz4 : Lz4) (columns : List ColumnSchema) :
    List ColumnReaderKind → List Nat → ExecResult (List RecordBatch)
  | _, [] => .ok []
  | readers, idx :: rest =>
      match readColumns lz4 idx (columns.zip readers) with
      | (.ok arrays, readers) => do
          let batch ← (RecordBatch.tryNew (columns.map Field.ofColumn) arrays).mapErr .arrow
          let batches ← readBatches lz4 columns readers rest
          .ok (batch :: batches)
      | (.err e, _) => .err (.io e)
      | (.panic, _) => .panic

theorem readBatches_eq {lz4 : Lz4} {columns : List ColumnSchema} {partDir : PartDir}
    {whole : RecordBatch} (nonempty : columns ≠ []) (holds : PartHolds lz4 columns partDir whole)
    {readers : List ColumnReaderKind} (areOn : List.Forall₂ (ReaderOn lz4) readers whole.columns)
    {idxs : List Nat}
    (inRange : ∀ i ∈ idxs, i < BlockLayout.granuleCount granuleSize whole.numRows) :
    readBatches lz4 columns readers idxs =
      .ok (idxs.map fun i => whole.slice (granuleSize * i) granuleSize) := by
  induction idxs generalizing readers with
  | nil => rfl
  | cons idx rest ih =>
      obtain ⟨readers', read, areOn'⟩ := readColumns_eq holds.types areOn whole.lengths
        holds.offsets (inRange idx (by simp))
      simp only [readBatches, read, tryNew_granule holds nonempty, Outcome.mapErr_ok,
        Outcome.ok_bind, ih areOn' fun i member => inRange i (by simp [member]), List.map_cons]

/-- **Storage round trip for string columns, aligned with numeric columns.** Take any of the
two string codecs, and strings whose blocks, encoded and compressed, are shorter than
`2 ^ 32` bytes. A reader of the written files has one granule for every 512 strings begun,
and any sequence of calls with indices in range returns the granules asked for.

Take also any part that is written for the columns of a batch, with any codecs. All its
columns open, with one granule for every 512 rows begun, and any sequence of granules
reads as the batch's slices; making a batch of the columns of a granule never fails. -/
theorem readGranules_writeStringColumn (lz4 : Lz4) (codec : StringCodec)
    (partDir partDir' : PartDir) (colName : String) (values : List String)
    (fits : ∀ b ∈ stringBlocks values, BlockFits lz4 codec b)
    (written : writeStringColumn lz4 partDir colName values codec = .ok partDir') :
    (∃ r, StringColumnReader.open partDir' colName = .ok r ∧
      r.granuleCount = (values.length + 511) / 512 ∧
      ∀ idxs : List Nat, (∀ i ∈ idxs, i < r.granuleCount) →
        ∃ r', StringColumnReader.readGranules lz4 r idxs =
          .ok (idxs.map fun i => values.extract (512 * i) (min (512 * (i + 1)) values.length),
            r')) ∧
    ∀ (codecs : CodecChoice) (columns : List ColumnSchema) (whole : RecordBatch)
      (dir dir' : PartDir), columns ≠ [] → (columns.map ColumnSchema.name).Nodup →
      whole.fields = columns.map Field.ofColumn → (∀ a ∈ whole.columns, a.textBytes < 2 ^ 31) →
      (∀ entry ∈ columns.zip whole.columns, BlocksFit lz4 (codecs entry.1).2 entry.2) →
      writeColumnsWith lz4 codecs dir (columns.zip whole.columns) = .ok dir' →
      ∃ readers, columns.mapM (ColumnReaderKind.open dir') = .ok readers ∧
        (∀ r ∈ readers, r.granuleCount = (whole.numRows + 511) / 512) ∧
        ∀ idxs : List Nat, (∀ i ∈ idxs, i < (whole.numRows + 511) / 512) →
          readBatches lz4 columns readers idxs =
            .ok (idxs.map fun i => whole.slice (512 * i) 512) := by
  constructor
  · obtain ⟨r, opened, count, read⟩ := readGranules_of_writeStringColumn fits written
    refine ⟨r, opened, count, fun idxs inRange => ?_⟩
    obtain ⟨r', read⟩ := read idxs inRange
    have each : granule granuleSize values = fun i =>
        values.extract (512 * i) (min (512 * (i + 1)) values.length) :=
      funext fun i => granule_eq_extract granuleSize values i
    exact ⟨r', each ▸ read⟩
  · intro codecs columns whole dir dir' nonempty distinct fields offsets blocksFit writes
    have holds := partHolds_of_writeColumnsWith distinct fields offsets blocksFit writes
    obtain ⟨readers, opened, areOn⟩ := open_columns holds.stored holds.types
    refine ⟨readers, opened, fun r member => ?_, fun idxs inRange => ?_⟩
    · obtain ⟨a, array, _, count⟩ := exists_of_mem_left areOn member
      rw [count, whole.lengths a array]
      rfl
    · exact readBatches_eq nonempty holds (areOn.imp fun _ _ both => both.1) inRange

/-- Three strings beside three integers. -/
def threeRows : RecordBatch where
  fields := [⟨"s", .data .str⟩, ⟨"a", .data (.int .u8)⟩]
  columns := [⟨.data .str, ["x", "", "x"]⟩,
    ⟨.data (.int .u8), [7, 8, 9].map (MachineInt.wrap false 7)⟩]
  numRows := 3
  typed := rfl
  lengths := by decide

/-- The strings in a dictionary and the integers in runs, read twice. -/
theorem readGranules_writeStringColumn_three :
    ∃ partDir r r' dir readers,
      writeStringColumn Lz4.literals PartDir.empty "s" ["x", "", "x"] .dictionary = .ok partDir ∧
      StringColumnReader.open partDir "s" = .ok r ∧
      StringColumnReader.readGranules Lz4.literals r [0, 0] =
        .ok ([["x", "", "x"], ["x", "", "x"]], r') ∧
      [ColumnSchema.mk "s" .str, ⟨"a", .int .u8⟩].mapM (ColumnReaderKind.open dir) = .ok readers ∧
      readBatches Lz4.literals [⟨"s", .str⟩, ⟨"a", .int .u8⟩] readers [0, 0] =
        .ok [threeRows, threeRows] := by
  have fits : ∀ b ∈ stringBlocks ["x", "", "x"], BlockFits Lz4.literals .dictionary b := by decide
  have written : ∃ partDir, writeStringColumn Lz4.literals PartDir.empty "s" ["x", "", "x"]
      .dictionary = .ok partDir := ⟨_, rfl⟩
  have writes : ∃ dir, writeColumnsWith Lz4.literals (fun _ => (.rle, .dictionary)) .empty
      ([ColumnSchema.mk "s" .str, ⟨"a", .int .u8⟩].zip threeRows.columns) = .ok dir := ⟨_, rfl⟩
  obtain ⟨partDir, written⟩ := written
  obtain ⟨dir, writes⟩ := writes
  obtain ⟨⟨r, opened, count, read⟩, aligned⟩ :=
    readGranules_writeStringColumn Lz4.literals .dictionary .empty partDir "s" _ fits written
  obtain ⟨r', granules⟩ := read [0, 0] (by rw [count]; decide)
  obtain ⟨readers, openedAll, _, batches⟩ := aligned (fun _ => (.rle, .dictionary))
    [⟨"s", .str⟩, ⟨"a", .int .u8⟩] threeRows .empty dir (by simp) (by decide) rfl (by decide) (by
      intro entry member values text b block
      rcases List.mem_cons.mp member with rfl | member
      · cases text
        exact fits b block
      · rcases List.mem_cons.mp member with rfl | member
        · cases text
        · cases member) writes
  exact ⟨partDir, r, r', dir, readers, written, opened, granules, openedAll,
    batches [0, 0] (by decide)⟩

end TinyOlap.Execution
