import TinyOlap.Encoding.StringCodec
import TinyOlap.Storage.BlockFile

/-!
# String columns

A string column is a block column whose decoded blocks are strings. The size of a
block is that of its plain encoding, but the offsets of the marks count strings, so
that a granule is a slice of the decoded block.
-/

set_option autoImplicit false

namespace TinyOlap.Storage

open Library Library.BlockLayout Encoding

/-- Blocks of a string column. -/
def stringFormat : BlockFormat String String StringCodec where
  size s := 4 + (utf8 s).length
  unit := 1
  piece s := [s]
  values := id
  tag := StringCodec.tag
  fromTag := StringCodec.fromTag
  encode codec values := .ok (codec.encode values [])
  decode codec bytes := codec.decode bytes []
  piece_length _ := rfl
  values_pieces := List.flatMap_singleton'
  fromTag_tag := StringCodec.fromTag_tag

/-- Write one string column to disk for a single part. -/
def writeStringColumn (lz4 : Lz4) (partDir : PartDir) (colName : String) (values : List String)
    (codec : StringCodec) : IoResult PartDir :=
  writeBlockColumn stringFormat codec lz4 partDir colName values

abbrev StringColumnReader : Type := BlockReader String

namespace StringColumnReader

def «open» (partDir : PartDir) (colName : String) : IoResult StringColumnReader :=
  BlockReader.open String partDir colName

def readGranule (lz4 : Lz4) (r : StringColumnReader) (idx : Nat) :
    IoResult (List String × StringColumnReader) :=
  Storage.readGranule stringFormat lz4 r idx

/-- A sequence of calls of `read_granule` on one reader. -/
def readGranules (lz4 : Lz4) (r : StringColumnReader) (idxs : List Nat) :
    IoResult (List (List String) × StringColumnReader) :=
  Storage.readGranules stringFormat lz4 r idxs

end StringColumnReader

/-- The blocks the strings of a column are stored in. -/
def stringBlocks (values : List String) : List (List String) := blocksOf stringFormat values

/-- The encoded form of a block and its compressed form are both shorter than `2 ^ 32`
bytes. -/
def BlockFits (lz4 : Lz4) (codec : StringCodec) (block : List String) : Prop :=
  (codec.encode block []).length < 2 ^ 32 ∧
    (lz4.compressPrependSize (codec.encode block [])).length < 2 ^ 32

instance (lz4 : Lz4) (codec : StringCodec) (block : List String) :
    Decidable (BlockFits lz4 codec block) :=
  inferInstanceAs (Decidable (_ ∧ _))

/-- Every string takes at least four bytes of an encoded block. -/
theorem length_le_encode (codec : StringCodec) (block : List String) :
    block.length ≤ (codec.encode block []).length := by
  cases codec with
  | plain => simpa [StringCodec.encode, StringPlain.encode] using
      StringCodec.count_le_flatMap block
  | dictionary =>
      have indices := length_flatMap_of_width (w := 4) (l := block)
        (f := fun s => leBytes 4 ((StringDictionary.buildDict block).idxOf s))
        fun s _ => leBytes_length _ _
      simp only [StringCodec.encode, StringDictionary.encode, List.length_append, indices]
      omega

theorem readable_of_blockFits {lz4 : Lz4} {codec : StringCodec} {block : List String}
    (fits : BlockFits lz4 codec block) :
    Readable stringFormat codec lz4 (fun b => codec.encode b []) block where
  decodes := by
    have decoded := StringCodec.decode_encode (StringCodec.fits_of_length fits.1) []
    rw [List.nil_append] at decoded
    exact decoded.trans (congrArg Outcome.ok (List.flatMap_singleton' block).symm)
  encoded_lt := fits.1
  compressed_lt := fits.2
  offsets_lt := by
    have short := length_le_encode codec block
    have := fits.1
    change block.length * 1 < 2 ^ 64
    omega

/-- A written string column is stored. -/
theorem stored_of_writeStringColumn {lz4 : Lz4} {codec : StringCodec}
    {partDir partDir' : PartDir} {colName : String} {values : List String}
    (fits : ∀ b ∈ stringBlocks values, BlockFits lz4 codec b)
    (written : writeStringColumn lz4 partDir colName values codec = .ok partDir') :
    Stored stringFormat codec lz4 (fun b => codec.encode b []) partDir' colName values ∧
      ∀ name, name ≠ .bin colName → name ≠ .mrk colName → partDir' name = partDir name :=
  writeBlockColumn_eq_ok (fun _ => rfl)
    (fun b member => readable_of_blockFits (fits b member)) written

/-- **Storage round trip for string columns.** The same as for fixed-width columns, as
long as every block is small enough for its frame. -/
theorem readGranules_of_writeStringColumn {lz4 : Lz4} {codec : StringCodec}
    {partDir partDir' : PartDir} {colName : String} {values : List String}
    (fits : ∀ b ∈ stringBlocks values, BlockFits lz4 codec b)
    (written : writeStringColumn lz4 partDir colName values codec = .ok partDir') :
    ∃ r, StringColumnReader.open partDir' colName = .ok r ∧
      r.granuleCount = BlockLayout.granuleCount granuleSize values.length ∧
      ∀ idxs : List Nat, (∀ i ∈ idxs, i < r.granuleCount) →
        ∃ r', StringColumnReader.readGranules lz4 r idxs =
          .ok (idxs.map (granule granuleSize values), r') := by
  obtain ⟨stored, _⟩ := stored_of_writeStringColumn fits written
  obtain ⟨r, opened, isOpen, count⟩ := stored.open
  refine ⟨r, opened, count, fun idxs inRange => ?_⟩
  obtain ⟨r', read, _⟩ := isOpen.readGranules stored.readable inRange
  exact ⟨r', read⟩

end TinyOlap.Storage
