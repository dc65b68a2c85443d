import TinyOlap.Library.LittleEndian

/-!
# Marks

A mark records where a granule begins: the offset of its block in the data file, and
how far into the decoded block it starts. On disk it takes 24 bytes, the last eight
of which are not used.
-/

set_option autoImplicit false

namespace TinyOlap.Storage

open Library

structure Mark where
  blockOffset : Nat
  decompressedOffset : Nat
deriving DecidableEq, Repr

namespace Mark

/-- Both offsets are 64-bit numbers. -/
def InRange (mark : Mark) : Prop := mark.blockOffset < 2 ^ 64 ∧ mark.decompressedOffset < 2 ^ 64

def toBytes (mark : Mark) : Bytes :=
  leBytes 8 mark.blockOffset ++ leBytes 8 mark.decompressedOffset ++ List.replicate 8 0

def fromBytes (bytes : Bytes) : Mark where
  blockOffset := leNat (bytes.take 8)
  decompressedOffset := leNat ((bytes.drop 8).take 8)

@[simp] theorem toBytes_length (mark : Mark) : mark.toBytes.length = 24 := by simp [toBytes]

theorem fromBytes_toBytes {mark : Mark} (range : mark.InRange) :
    fromBytes mark.toBytes = mark := by
  obtain ⟨block, inside⟩ := mark
  obtain ⟨blockFits, insideFits⟩ := range
  have first : (toBytes ⟨block, inside⟩).take 8 = leBytes 8 block := by
    rw [toBytes, List.append_assoc]
    exact List.take_left' (leBytes_length _ _)
  have second : ((toBytes ⟨block, inside⟩).drop 8).take 8 = leBytes 8 inside := by
    rw [toBytes, List.append_assoc, List.drop_left' (leBytes_length _ _)]
    exact List.take_left' (leBytes_length _ _)
  rw [fromBytes, first, second, leNat_leBytes_of_lt (w := 8) (by simpa using blockFits),
    leNat_leBytes_of_lt (w := 8) (by simpa using insideFits)]

end Mark

/-- The contents of a mark file. -/
def markBytes (marks : List Mark) : Bytes := marks.flatMap Mark.toBytes

/-- `MarkReader::read_all`. -/
def readAllMarks (buf : Bytes) : List Mark := (chunksExact 24 buf).map Mark.fromBytes

/-- **Marks survive being written and read back.** -/
theorem readAllMarks_markBytes {marks : List Mark} (range : ∀ m ∈ marks, m.InRange) :
    readAllMarks (markBytes marks) = marks := by
  rw [readAllMarks, markBytes,
    chunksExact_flatMap (by decide) fun m _ => Mark.toBytes_length m, List.map_map]
  exact (List.map_congr_left fun m member => Mark.fromBytes_toBytes (range m member)).trans
    (List.map_id marks)

end TinyOlap.Storage
