import TinyOlap.Arrow.RecordBatch
import TinyOlap.Storage.Column
import TinyOlap.Storage.StringColumn
import TinyOlap.Storage.ZoneMap

/-!
# Writing a part

An insert checks the batch against the schema, and writes every column and the zone map into
the directory of a part. What it writes is said by `StoredColumn`, for each column, and by
`encodeZone`, for its bounds. Here a directory has a file of its own for each name.
-/

set_option autoImplicit false

namespace TinyOlap.Storage

open Library Library.BlockLayout Encoding Catalog Arrow

/-- A batch as it is handed to `insert`. Arrow addresses the bytes of a string array
with 32-bit signed offsets. -/
structure InsertBatch extends RecordBatch where
  offsets : ∀ a ∈ columns, a.textBytes < 2 ^ 31

def checkType (array : ArrayRef) (col : ColumnSchema) : IoResult Unit :=
  if array.type = toArrow col.dataType then .ok ()
  else .err ⟨.invalidInput, "column '" ++ col.name ++ "': chunk type does not match schema type " ++
    typeText col.dataType⟩

/-! ## Bounds -/

/-- `widen_signed`: both bounds as `i64`. -/
def widenSigned {signed : Bool} {top : Nat} (z : ZoneMapEntry (MachineInt signed top)) :
    ZoneEntry where
  minBytes := (MachineInt.wrap true 63 z.min.val).toLeBytes 8
  maxBytes := (MachineInt.wrap true 63 z.max.val).toLeBytes 8
  min_length := leBytes_length _ _
  max_length := leBytes_length _ _

/-- `widen_unsigned`: both bounds as `u64`. -/
def widenUnsigned {signed : Bool} {top : Nat} (z : ZoneMapEntry (MachineInt signed top)) :
    ZoneEntry where
  minBytes := (MachineInt.wrap false 63 z.min.val).toLeBytes 8
  maxBytes := (MachineInt.wrap false 63 z.max.val).toLeBytes 8
  min_length := leBytes_length _ _
  max_length := leBytes_length _ _

/-- `widen_float`: the bits of both bounds as `f64`. -/
def widenFloat {T : Type} (toF64 : T → F64) (z : ZoneMapEntry T) : ZoneEntry where
  minBytes := (toF64 z.min).toLeBytes 8
  maxBytes := (toF64 z.max).toLeBytes 8
  min_length := leBytes_length _ _
  max_length := leBytes_length _ _

/-- The bounds of an integer column, widened by its signedness. -/
def widenInt (t : IntType) (z : ZoneMapEntry t.Native) : ZoneEntry :=
  if t.signed then widenSigned z else widenUnsigned z

/-! ## Writing a part -/

/-- Codec selection. -/
def codecFor (col : ColumnSchema) : Codec :=
  match col.dataType with
  | .int .i16 | .int .i32 | .int .i64 | .int .u16 | .int .u32 | .int .u64 => .delta
  | _ => .plain

def writeOneColumn (lz4 : Lz4) (partDir : PartDir) (col : ColumnSchema) (array : ArrayRef) :
    IoResult (PartDir × Option EncodedZoneMapEntry) := do
  let codec := codecFor col
  let encoded := fun entry => EncodedZoneMapEntry.mk col.name col.dataType.typeTag entry
  match col.dataType with
  | .int t => do
      let values ← .orPanic (array.downcast (.data (.int t)))
      let (partDir, z) ← writeColumn (T := t.Native) lz4 partDir col.name values codec
      .ok (partDir, z.map fun z => encoded (widenInt t z))
  | .f32 => do
      let values ← .orPanic (array.downcast (.data .f32))
      let (partDir, z) ← writeColumn (T := F32) lz4 partDir col.name values codec
      .ok (partDir, z.map fun z => encoded (widenFloat (Ieee.convert 11 52) z))
  | .f64 => do
      let values ← .orPanic (array.downcast (.data .f64))
      let (partDir, z) ← writeColumn (T := F64) lz4 partDir col.name values codec
      .ok (partDir, z.map fun z => encoded (widenFloat id z))
  | .bool => do
      let values ← .orPanic (array.downcast (.data .bool))
      let (partDir, _) ← writeColumn (T := Bool) lz4 partDir col.name values codec
      .ok (partDir, none)
  | .str => do
      let values ← .orPanic (array.downcast (.data .str))
      let partDir ← writeStringColumn lz4 partDir col.name values .plain
      .ok (partDir, none)

/-- Write all columns. They are written in parallel, each to files of its own. -/
def writeColumns (lz4 : Lz4) (partDir : PartDir) :
    List (ColumnSchema × ArrayRef) → IoResult (PartDir × List EncodedZoneMapEntry)
  | [] => .ok (partDir, [])
  | (col, array) :: rest => do
      let (partDir, entry) ← writeOneColumn lz4 partDir col array
      let (partDir, entries) ← writeColumns lz4 partDir rest
      .ok (partDir, entry.toList ++ entries)

/-- The checks an insert makes before it touches the disk. -/
def checkBatch (schema : TableSchema) (batch : RecordBatch) : IoResult Unit :=
  if batch.columns.length ≠ schema.columns.length then
    .err ⟨.invalidInput, "expected " ++ toString schema.columns.length ++ " chunks, got " ++
      toString batch.columns.length⟩
  else (batch.columns.zip schema.columns).forM fun (array, col) => checkType array col

/-- What an insert writes into the directory of the new part. -/
def writePart (lz4 : Lz4) (schema : TableSchema) (batch : RecordBatch) : IoResult PartDir := do
  let (partDir, entries) ← writeColumns lz4 .empty (schema.columns.zip batch.columns)
  writeZoneMap partDir entries

/-! ## What is written -/

/-- The serialized bounds of a column, if its type has any and it has a value. -/
def encodeZone (col : ColumnSchema) (array : ArrayRef) : Option EncodedZoneMapEntry :=
  let encoded := fun entry => EncodedZoneMapEntry.mk col.name col.dataType.typeTag entry
  match col.dataType with
  | .int t => (array.downcast (.data (.int t))).bind fun values =>
      (zoneMapEntry (T := t.Native) values).map fun z => encoded (widenInt t z)
  | .f32 => (array.downcast (.data .f32)).bind fun values =>
      (zoneMapEntry (T := F32) values).map fun z => encoded (widenFloat (Ieee.convert 11 52) z)
  | .f64 => (array.downcast (.data .f64)).bind fun values =>
      (zoneMapEntry (T := F64) values).map fun z => encoded (widenFloat id z)
  | .bool | .str => none

theorem encodeZone_colName {col : ColumnSchema} {array : ArrayRef} {e : EncodedZoneMapEntry}
    (bounds : encodeZone col array = some e) : e.colName = col.name := by
  unfold encodeZone at bounds
  simp only at bounds
  split at bounds
  all_goals
    first
    | cases bounds
    | (obtain ⟨values, _, bounds⟩ := Option.bind_eq_some_iff.mp bounds
       obtain ⟨z, _, rfl⟩ := Option.map_eq_some_iff.mp bounds
       rfl)

/-- The files of a column hold the values of an array of its type. -/
inductive StoredColumn (lz4 : Lz4) (partDir : PartDir) (name : String) : ArrayRef → Prop
  | fixed (t : FixedType) (codec : Codec) (enc : List t.Native → Bytes) (values : List t.Native)
      (stored : Stored (columnFormat t.Native) codec lz4 enc partDir name values) :
      StoredColumn lz4 partDir name ⟨.data (.fixed t), values⟩
  | str (codec : StringCodec) (values : List String)
      (stored : Stored stringFormat codec lz4 (fun b => codec.encode b []) partDir name values) :
      StoredColumn lz4 partDir name ⟨.data .str, values⟩

theorem StoredColumn.congr {lz4 : Lz4} {partDir other : PartDir} {name : String} {array : ArrayRef}
    (stored : StoredColumn lz4 partDir name array) (bin : other (.bin name) = partDir (.bin name))
    (mrk : other (.mrk name) = partDir (.mrk name)) : StoredColumn lz4 other name array := by
  cases stored with
  | fixed t codec enc values stored => exact .fixed t codec enc values (stored.congr bin mrk)
  | str codec values stored => exact .str codec values (stored.congr bin mrk)

/-- The size of a block of strings is what its plain encoding takes. -/
theorem encode_plain_length (block : List String) :
    (StringCodec.plain.encode block []).length = totalSize stringFormat.size block := by
  simp only [StringCodec.encode, StringPlain.encode, List.nil_append]
  induction block with
  | nil => rfl
  | cons s block ih =>
      rw [List.flatMap_cons, List.length_append, ih, encodeEntry, List.length_append,
        leBytes_length]
      rfl

theorem totalSize_strings (block : List String) :
    totalSize stringFormat.size block =
      4 * block.length + (block.map String.utf8ByteSize).sum := by
  induction block with
  | nil => rfl
  | cons s block ih =>
      rw [totalSize, List.map_cons, List.sum_cons, List.map_cons, List.sum_cons, List.length_cons]
      rw [totalSize] at ih
      rw [ih]
      change 4 + s.utf8ByteSize + _ = _
      omega

/-- The blocks of a string array are small enough for their frames: all granules but
the last are below the limit, and the last is bounded by the offsets of the array. -/
theorem blockFits_of_textBytes (lz4 : Lz4) {values : List String}
    (offsets : (values.map String.utf8ByteSize).sum < 2 ^ 31) :
    ∀ b ∈ stringBlocks values, BlockFits lz4 .plain b := by
  intro b member
  have count : 4 * b.length < blockBufferSize + 4 * granuleSize :=
    cut_length_lt granuleSize_pos (by decide) (fun s => Nat.le_add_right 4 _) values b member
  have texts : (b.map String.utf8ByteSize).sum ≤ (values.map String.utf8ByteSize).sum := by
    rw [← @blocksOf_flatten _ _ _ stringFormat values]
    obtain ⟨before, after, split⟩ := List.append_of_mem member
    change _ ≤ ((stringBlocks values).flatten.map _).sum
    rw [split]
    simp only [List.flatten_append, List.flatten_cons, List.map_append, List.sum_append]
    omega
  have fixed : blockBufferSize + 4 * granuleSize = 10240 := rfl
  have compressed := lz4.compress_length (StringCodec.plain.encode b [])
  have size := (encode_plain_length b).trans (totalSize_strings b)
  exact ⟨by omega, by omega⟩

theorem writeColumn_stored {lz4 : Lz4} (t : FixedType) {codec : Codec} {partDir partDir' : PartDir}
    {name : String} {values : List t.Native} {entry : Option (ZoneMapEntry t.Native)}
    (written : writeColumn lz4 partDir name values codec = .ok (partDir', entry)) :
    StoredColumn lz4 partDir' name ⟨.data (.fixed t), values⟩ ∧
      (∀ file, file ≠ .bin name → file ≠ .mrk name → partDir' file = partDir file) ∧
      entry = zoneMapEntry values := by
  obtain ⟨⟨enc, stored⟩, frame, bounds⟩ := stored_of_writeColumn written
  exact ⟨.fixed t codec enc values stored, frame, bounds⟩

/-- Writing one column stores its array, touches no other file, and returns its
bounds. -/
theorem writeOneColumn_eq_ok {lz4 : Lz4} {partDir partDir' : PartDir} {col : ColumnSchema}
    {array : ArrayRef} {entry : Option EncodedZoneMapEntry} (offsets : array.textBytes < 2 ^ 31)
    (written : writeOneColumn lz4 partDir col array = .ok (partDir', entry)) :
    StoredColumn lz4 partDir' col.name array ∧
      (∀ file, file ≠ .bin col.name → file ≠ .mrk col.name → partDir' file = partDir file) ∧
      entry = encodeZone col array := by
  obtain ⟨name, dataType⟩ := col
  match dataType with
  | .int t =>
      obtain ⟨values, cast, written⟩ := Outcome.bind_eq_ok.mp written
      obtain ⟨⟨dir, z⟩, columns, last⟩ := Outcome.bind_eq_ok.mp written
      cases last
      rw [Outcome.orPanic_eq_ok] at cast
      obtain ⟨stored, frame, rfl⟩ := writeColumn_stored (.int t) columns
      rw [ArrayRef.downcast_eq_some.mp cast]
      exact ⟨stored, frame, by simp [encodeZone]⟩
  | .f32 =>
      obtain ⟨values, cast, written⟩ := Outcome.bind_eq_ok.mp written
      obtain ⟨⟨dir, z⟩, columns, last⟩ := Outcome.bind_eq_ok.mp written
      cases last
      rw [Outcome.orPanic_eq_ok] at cast
      obtain ⟨stored, frame, rfl⟩ := writeColumn_stored .f32 columns
      rw [ArrayRef.downcast_eq_some.mp cast]
      exact ⟨stored, frame, by simp [encodeZone]⟩
  | .f64 =>
      obtain ⟨values, cast, written⟩ := Outcome.bind_eq_ok.mp written
      obtain ⟨⟨dir, z⟩, columns, last⟩ := Outcome.bind_eq_ok.mp written
      cases last
      rw [Outcome.orPanic_eq_ok] at cast
      obtain ⟨stored, frame, rfl⟩ := writeColumn_stored .f64 columns
      rw [ArrayRef.downcast_eq_some.mp cast]
      exact ⟨stored, frame, by simp [encodeZone]⟩
  | .bool =>
      obtain ⟨values, cast, written⟩ := Outcome.bind_eq_ok.mp written
      obtain ⟨⟨dir, z⟩, columns, last⟩ := Outcome.bind_eq_ok.mp written
      cases last
      rw [Outcome.orPanic_eq_ok] at cast
      obtain ⟨stored, frame, rfl⟩ := writeColumn_stored .bool columns
      rw [ArrayRef.downcast_eq_some.mp cast]
      exact ⟨stored, frame, rfl⟩
  | .str =>
      obtain ⟨values, cast, written⟩ := Outcome.bind_eq_ok.mp written
      obtain ⟨dir, column, last⟩ := Outcome.bind_eq_ok.mp written
      cases last
      rw [Outcome.orPanic_eq_ok] at cast
      rw [ArrayRef.downcast_eq_some.mp cast] at offsets ⊢
      obtain ⟨stored, frame⟩ :=
        stored_of_writeStringColumn (blockFits_of_textBytes lz4 (by
          simpa [ArrayRef.textBytes] using offsets)) column
      exact ⟨.str .plain values stored, frame, rfl⟩

/-- The name of a stored column is short: it is a part of a file name. -/
theorem StoredColumn.name_length {lz4 : Lz4} {partDir : PartDir} {name : String}
    {array : ArrayRef} (stored : StoredColumn lz4 partDir name array) :
    (utf8 name).length < 2 ^ 16 := by
  have legal : (FileName.bin name).Legal := by
    cases stored with
    | fixed _ _ _ _ stored => exact stored.legal
    | str _ _ stored => exact stored.legal
  have short : (name ++ ".bin").utf8ByteSize < 4096 := legal.2.1
  rw [String.utf8ByteSize_append] at short
  change name.utf8ByteSize < 2 ^ 16
  omega

/-- A stored column stays stored when columns of other names are written. -/
theorem StoredColumn.keep {lz4 : Lz4} {partDir partDir' : PartDir} {name : String}
    {array : ArrayRef} {columns : List (ColumnSchema × ArrayRef)}
    (stored : StoredColumn lz4 partDir name array) (other : ∀ entry ∈ columns, entry.1.name ≠ name)
    (frame : ∀ file, (∀ entry ∈ columns, file ≠ .bin entry.1.name ∧ file ≠ .mrk entry.1.name) →
      partDir' file = partDir file) : StoredColumn lz4 partDir' name array := by
  refine stored.congr (frame _ fun entry member => ?_) (frame _ fun entry member => ?_)
  · simpa using (other entry member).symm
  · simpa using (other entry member).symm

/-- Writing the columns of a schema without repeated names stores every array under
the name of its column, and returns the bounds in the order of the columns. -/
theorem writeColumns_eq_ok {lz4 : Lz4} {columns : List (ColumnSchema × ArrayRef)}
    (distinct : (columns.map fun entry => entry.1.name).Nodup)
    (offsets : ∀ entry ∈ columns, entry.2.textBytes < 2 ^ 31) :
    ∀ {partDir partDir' : PartDir} {entries : List EncodedZoneMapEntry},
      writeColumns lz4 partDir columns = .ok (partDir', entries) →
      (∀ entry ∈ columns, StoredColumn lz4 partDir' entry.1.name entry.2) ∧
        (∀ file, (∀ entry ∈ columns, file ≠ .bin entry.1.name ∧ file ≠ .mrk entry.1.name) →
          partDir' file = partDir file) ∧
        entries = columns.filterMap fun entry => encodeZone entry.1 entry.2 := by
  induction columns with
  | nil =>
      intro partDir partDir' entries written
      cases written
      exact ⟨by simp, fun _ _ => rfl, rfl⟩
  | cons entry columns ih =>
      intro partDir partDir' entries written
      obtain ⟨col, array⟩ := entry
      rw [List.map_cons, List.nodup_cons] at distinct
      obtain ⟨⟨dir, zone⟩, first, written⟩ := Outcome.bind_eq_ok.mp written
      obtain ⟨⟨dir', zones⟩, rest, last⟩ := Outcome.bind_eq_ok.mp written
      cases last
      obtain ⟨stored, frame, rfl⟩ := writeOneColumn_eq_ok (offsets (col, array) (by simp)) first
      obtain ⟨storedRest, frameRest, rfl⟩ :=
        ih distinct.2 (fun e member => offsets e (by simp [member])) rest
      refine ⟨fun e member => ?_, fun file other => ?_, ?_⟩
      · rcases List.mem_cons.mp member with rfl | later
        · exact stored.keep (fun d here same => distinct.1 (List.mem_map.mpr ⟨d, here, same⟩))
            frameRest
        · exact storedRest e later
      · rw [frameRest file fun d here => other d (by simp [here])]
        have names := other (col, array) (by simp)
        exact frame file names.1 names.2
      · cases bounds : encodeZone col array <;> simp [bounds]

/-! ## A written part -/

/-- The bounds that the tasks of the columns return. -/
def zoneEntries (schema : TableSchema) (batch : RecordBatch) : List EncodedZoneMapEntry :=
  (schema.columns.zip batch.columns).filterMap fun entry => encodeZone entry.1 entry.2

/-- A part directory whose zone map is that of a batch. -/
structure ZonedPart (schema : TableSchema) (batch : RecordBatch) (partDir : PartDir) : Prop where
  typed : batch.columns.map ArrayRef.type = schema.columns.map fun c => toArrow c.dataType
  zones : ∃ entries : List EncodedZoneMapEntry, entries.Sublist (zoneEntries schema batch) ∧
    readZoneMap partDir = .ok (insertZones entries .empty)

/-- A part directory that holds a batch. -/
structure WrittenPart (lz4 : Lz4) (schema : TableSchema) (batch : RecordBatch)
    (partDir : PartDir) : Prop extends ZonedPart schema batch partDir where
  offsets : ∀ a ∈ batch.columns, a.textBytes < 2 ^ 31
  stored : ∀ entry ∈ schema.columns.zip batch.columns,
    StoredColumn lz4 partDir entry.1.name entry.2

theorem zip_names_nodup {schema : TableSchema} {arrays : List ArrayRef}
    (distinct : schema.Distinct)
    (typed : arrays.map ArrayRef.type = schema.columns.map fun c => toArrow c.dataType) :
    ((schema.columns.zip arrays).map fun entry => entry.1.name).Nodup := by
  have sameLength : arrays.length = schema.columns.length := by
    simpa using congrArg List.length typed
  rw [show (fun entry : ColumnSchema × ArrayRef => entry.1.name) =
    ColumnSchema.name ∘ Prod.fst from rfl, ← List.map_map, List.map_fst_zip (by omega)]
  exact distinct

theorem ZonedPart.names_nodup {schema : TableSchema} {batch : RecordBatch} {partDir : PartDir}
    (zoned : ZonedPart schema batch partDir) (distinct : schema.Distinct) :
    ((schema.columns.zip batch.columns).map fun entry => entry.1.name).Nodup :=
  zip_names_nodup distinct zoned.typed

/-- A directory has the zone map of a batch if the bytes of that are in it, and the names of the
columns are short. -/
theorem zonedPart_of_bytes {schema : TableSchema} {batch : RecordBatch} {partDir : PartDir}
    (typed : batch.columns.map ArrayRef.type = schema.columns.map fun c => toArrow c.dataType)
    (short : ∀ entry ∈ schema.columns.zip batch.columns, (utf8 entry.1.name).length < 2 ^ 16)
    (bytes : partDir .zonemap = some (zoneMapBytes (zoneEntries schema batch)))
    (fits : (zoneMapBytes (zoneEntries schema batch)).length < 2 ^ 64) :
    ZonedPart schema batch partDir where
  typed := typed
  zones := by
    have names : ∀ e ∈ zoneEntries schema batch, (utf8 e.colName).length < 2 ^ 16 := by
      intro e member
      obtain ⟨entry, here, bounds⟩ := List.mem_filterMap.mp member
      rw [encodeZone_colName bounds]
      exact short entry here
    refine ⟨_, List.take_sublist ((zoneEntries schema batch).length % 2 ^ 16) _, ?_⟩
    rw [readZoneMap, PartDir.read_of_some bytes, Outcome.ok_bind,
      parseZoneMap_zoneMapBytes names fits]

theorem checkTypes_eq_ok {arrays : List ArrayRef} {columns : List ColumnSchema}
    (sameLength : arrays.length = columns.length)
    (checked : ((arrays.zip columns).forM fun (array, col) => checkType array col) = .ok ()) :
    arrays.map ArrayRef.type = columns.map fun c => toArrow c.dataType := by
  induction arrays generalizing columns with
  | nil =>
      rw [List.length_eq_zero_iff.mp sameLength.symm]
      rfl
  | cons a arrays ih =>
      cases columns with
      | nil => simp at sameLength
      | cons c columns =>
          obtain ⟨_, first, rest⟩ := Outcome.bind_eq_ok.mp checked
          simp only [checkType] at first
          split at first
          · rename_i here
            rw [List.map_cons, List.map_cons, here, ih (Nat.succ.inj sameLength) rest]
          · cases first

theorem checkBatch_eq_ok {schema : TableSchema} {batch : RecordBatch}
    (checked : checkBatch schema batch = .ok ()) :
    batch.columns.map ArrayRef.type = schema.columns.map fun c => toArrow c.dataType := by
  unfold checkBatch at checked
  split at checked
  · cases checked
  · rename_i sameLength
    exact checkTypes_eq_ok (not_not.mp sameLength) checked

theorem writePart_eq_ok {lz4 : Lz4} {schema : TableSchema} {batch : InsertBatch}
    {partDir : PartDir} (distinct : schema.Distinct)
    (typed : batch.columns.map ArrayRef.type = schema.columns.map fun c => toArrow c.dataType)
    (written : writePart lz4 schema batch.toRecordBatch = .ok partDir) :
    WrittenPart lz4 schema batch.toRecordBatch partDir := by
  obtain ⟨⟨dir, entries⟩, columns, zoned⟩ := Outcome.bind_eq_ok.mp written
  obtain ⟨stored, _, rfl⟩ := writeColumns_eq_ok (zip_names_nodup distinct typed)
    (fun entry member => batch.offsets _ (List.of_mem_zip member).2) columns
  obtain ⟨fits, rfl⟩ := writeZoneMap_eq_ok zoned
  exact
    { toZonedPart := zonedPart_of_bytes typed (fun entry here => (stored entry here).name_length)
        (PartDir.set_same _ _ _) fits
      offsets := batch.offsets
      stored := fun entry member => (stored entry member).congr
        (PartDir.set_other _ (by simp)) (PartDir.set_other _ (by simp)) }

end TinyOlap.Storage
