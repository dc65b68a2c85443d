import TinyOlap.Encoding.Primitive
import TinyOlap.Library.Extremum
import TinyOlap.Storage.BlockFile

/-!
# Fixed-width columns

A fixed-width column is a block column whose decoded blocks are bytes: a value takes
as many as its type is wide, in the size of a block as well as in the offsets of the
marks. The writer also tracks the least and the greatest value, in the order of the
type's own `<`.
-/

set_option autoImplicit false

namespace TinyOlap.Storage

open Library Library.BlockLayout Encoding Catalog

/-- The bounds of one column within one part. -/
structure ZoneMapEntry (T : Type) where
  min : T
  max : T
deriving DecidableEq, Repr

section Column

variable (T : Type) [Primitive T]

/-- Blocks of a fixed-width column. -/
def columnFormat : BlockFormat T UInt8 Codec where
  size _ := Primitive.width T
  unit := Primitive.width T
  piece := Primitive.encodeLe
  values bytes := (chunksExact (Primitive.width T) bytes).map Primitive.decodeLe
  tag := Codec.tag
  fromTag := Codec.fromTag
  encode codec values := codec.encode (values.flatMap Primitive.encodeLe) (Primitive.width T) []
  decode codec bytes := codec.decode bytes (Primitive.width T) []
  piece_length := Primitive.encodeLe_length
  values_pieces vs := by
    rw [chunksExact_flatMap (Primitive.width_pos T) fun v _ => Primitive.encodeLe_length v,
      List.map_map]
    exact (List.map_congr_left fun v _ => Primitive.decodeLe_encodeLe v).trans (List.map_id vs)
  fromTag_tag := Codec.fromTag_tag

variable {T}

/-- The least value so far: replaced by `v` if `v < m`. -/
def trackMin : Option T → T → Option T := track fun v m => Primitive.lt v m

/-- The greatest value so far: replaced by `v` if `v > m`. -/
def trackMax : Option T → T → Option T := track fun v m => Primitive.lt m v

/-- The bounds of the values, if there are any. -/
def zoneMapEntry (values : List T) : Option (ZoneMapEntry T) := do
  let min ← values.foldl trackMin none
  let max ← values.foldl trackMax none
  pure ⟨min, max⟩

/-- Write one column to disk for a single part. The loop that writes the blocks tracks
the bounds in the same pass. -/
def writeColumn (lz4 : Lz4) (partDir : PartDir) (colName : String) (values : List T)
    (codec : Codec) : IoResult (PartDir × Option (ZoneMapEntry T)) := do
  let partDir ← writeBlockColumn (columnFormat T) codec lz4 partDir colName values
  .ok (partDir, zoneMapEntry values)

end Column

abbrev ColumnReader : Type := BlockReader UInt8

namespace ColumnReader

def «open» (partDir : PartDir) (colName : String) : IoResult ColumnReader :=
  BlockReader.open UInt8 partDir colName

def readGranule (T : Type) [Primitive T] (lz4 : Lz4) (r : ColumnReader) (idx : Nat) :
    IoResult (List T × ColumnReader) :=
  Storage.readGranule (columnFormat T) lz4 r idx

/-- A sequence of calls of `read_granule` on one reader. -/
def readGranules (T : Type) [Primitive T] (lz4 : Lz4) (r : ColumnReader) (idxs : List Nat) :
    IoResult (List (List T) × ColumnReader) :=
  Storage.readGranules (columnFormat T) lz4 r idxs

end ColumnReader

/-! ## Round trip -/

section RoundTrip

variable {T : Type} [Primitive T]

/-- Every block has an encoded form, which decodes and is at most three times as long. -/
theorem exists_encoded (codec : Codec) :
    ∃ enc : List T → Bytes, ∀ b,
      (enc b).length ≤ 3 * (Primitive.width T * b.length) ∧
      (columnFormat T).encode codec b = .ok (enc b) ∧
      (columnFormat T).decode codec (enc b) = .ok (b.flatMap Primitive.encodeLe) := by
  have each : ∀ b : List T, ∃ encoded : Bytes,
      encoded.length ≤ 3 * (Primitive.width T * b.length) ∧
      (columnFormat T).encode codec b = .ok encoded ∧
      (columnFormat T).decode codec encoded = .ok (b.flatMap Primitive.encodeLe) := by
    intro b
    have length := length_flatMap_of_width (l := b) fun v _ => Primitive.encodeLe_length v
    obtain ⟨encoded, size, encoding, decoding⟩ := codec.encode_decode
      (Primitive.width_supported (T := T)) (length ▸ Nat.dvd_mul_right _ _)
    exact ⟨encoded, length ▸ size, encoding [], decoding []⟩
  choose enc spec using each
  exact ⟨enc, spec⟩

/-- The blocks of a fixed-width column are small, so that all about them fits. -/
theorem readable_of_mem_blocksOf (lz4 : Lz4) {codec : Codec} {enc : List T → Bytes}
    (spec : ∀ b, (enc b).length ≤ 3 * (Primitive.width T * b.length) ∧
      (columnFormat T).encode codec b = .ok (enc b) ∧
      (columnFormat T).decode codec (enc b) = .ok (b.flatMap Primitive.encodeLe))
    {values b : List T} (member : b ∈ blocksOf (columnFormat T) values) :
    Readable (columnFormat T) codec lz4 enc b := by
  obtain ⟨size, _, decodes⟩ := spec b
  have short : Primitive.width T * b.length < blockBufferSize + Primitive.width T * granuleSize :=
    cut_length_lt granuleSize_pos (by decide) (fun _ => Nat.le_refl _) values b member
  have narrow : Primitive.width T * granuleSize ≤ 8 * granuleSize :=
    Nat.mul_le_mul_right _ (Primitive.width_le T)
  have compressed := lz4.compress_length (enc b)
  have fixed : blockBufferSize + 8 * granuleSize = 12288 := rfl
  refine ⟨decodes, by omega, by omega, ?_⟩
  rw [Nat.mul_comm]
  change Primitive.width T * b.length < 2 ^ 64
  omega

/-- A written column is stored. -/
theorem stored_of_writeColumn {lz4 : Lz4} {codec : Codec} {partDir partDir' : PartDir}
    {colName : String} {values : List T} {entry : Option (ZoneMapEntry T)}
    (written : writeColumn lz4 partDir colName values codec = .ok (partDir', entry)) :
    (∃ enc, Stored (columnFormat T) codec lz4 enc partDir' colName values) ∧
      (∀ name, name ≠ .bin colName → name ≠ .mrk colName → partDir' name = partDir name) ∧
      entry = zoneMapEntry values := by
  obtain ⟨dir, blocks, last⟩ := Outcome.bind_eq_ok.mp written
  cases last
  obtain ⟨enc, spec⟩ := exists_encoded (T := T) codec
  obtain ⟨stored, frame⟩ := writeBlockColumn_eq_ok (fun b => (spec b).2.1)
    (fun b member => readable_of_mem_blocksOf lz4 spec member) blocks
  exact ⟨⟨enc, stored⟩, frame, rfl⟩

end RoundTrip

theorem granule_eq_extract {α : Type} (g : Nat) (values : List α) (i : Nat) :
    granule g values i = values.extract (g * i) (min (g * (i + 1)) values.length) := by
  rw [granule, List.extract_eq_take_drop, Nat.mul_succ]
  by_cases inner : g * i + g ≤ values.length
  · rw [Nat.min_eq_left inner, Nat.add_sub_cancel_left]
  · rw [Nat.min_eq_right (by omega), List.take_of_length_le (by rw [List.length_drop]; omega),
      List.take_of_length_le (by rw [List.length_drop])]

/-- **Storage round trip for fixed-width columns.** After `writeColumn`, a reader of the
two files has one granule for every 512 values begun, and any sequence of calls with
indices in range returns the granules asked for. -/
theorem readGranules_writeColumn (lz4 : Lz4) (t : FixedType) (codec : Codec)
    (partDir partDir' : PartDir) (colName : String) (values : List t.Native)
    (entry : Option (ZoneMapEntry t.Native))
    (written : writeColumn lz4 partDir colName values codec = .ok (partDir', entry)) :
    ∃ r, ColumnReader.open partDir' colName = .ok r ∧
      r.granuleCount = (values.length + 511) / 512 ∧
      ∀ idxs : List Nat, (∀ i ∈ idxs, i < r.granuleCount) →
        ∃ r', ColumnReader.readGranules t.Native lz4 r idxs =
          .ok (idxs.map fun i => values.extract (512 * i) (min (512 * (i + 1)) values.length),
            r') := by
  obtain ⟨⟨enc, stored⟩, _, _⟩ := stored_of_writeColumn written
  obtain ⟨r, opened, isOpen, count⟩ := stored.open
  refine ⟨r, opened, count, fun idxs inRange => ?_⟩
  obtain ⟨r', read, _⟩ := isOpen.readGranules stored.readable inRange
  have each : granule granuleSize values = fun i =>
      values.extract (512 * i) (min (512 * (i + 1)) values.length) :=
    funext fun i => granule_eq_extract granuleSize values i
  exact ⟨r', each ▸ read⟩

/-- Seven values, read twice. -/
theorem readGranules_writeColumn_seven :
    ∃ partDir' entry r r',
      writeColumn Lz4.literals PartDir.empty "a"
        ([3, 3, -4, 1, 1, 1, 90].map (MachineInt.wrap true 7) : List (FixedType.int .i8).Native)
        .rle = .ok (partDir', entry) ∧
      ColumnReader.open partDir' "a" = .ok r ∧
      ColumnReader.readGranules (FixedType.int .i8).Native Lz4.literals r [0, 0] =
        .ok (List.replicate 2 ([3, 3, -4, 1, 1, 1, 90].map (MachineInt.wrap true 7)), r') := by
  have written : ∃ partDir' entry, writeColumn Lz4.literals PartDir.empty "a"
      ([3, 3, -4, 1, 1, 1, 90].map (MachineInt.wrap true 7) : List (FixedType.int .i8).Native)
      .rle = .ok (partDir', entry) := ⟨_, _, rfl⟩
  obtain ⟨partDir', entry, written⟩ := written
  obtain ⟨r, opened, count, read⟩ := readGranules_writeColumn _ _ _ _ _ _ _ _ written
  obtain ⟨r', granules⟩ := read [0, 0] (by rw [count]; decide)
  exact ⟨partDir', entry, r, r', written, opened, granules⟩

end TinyOlap.Storage
