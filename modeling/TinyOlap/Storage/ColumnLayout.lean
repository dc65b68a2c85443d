import TinyOlap.Encoding.Format
import TinyOlap.Storage.Column

/-!
# The layout of a column file

The data file of a fixed-width column is a row of frames. The writer keeps its place with
three counters and two buffers, which it advances value by value and resets when it flushes;
what comes of them is stated here about the two files alone. Every frame but the last holds
8192 bytes of values, the last holds at most as many, and the marks name the beginnings of the
frames, with one mark for each 512 values of a frame. A run of equal values is therefore never
as long as a run-length count can be.
-/

set_option autoImplicit false

namespace TinyOlap.Storage

open Library Library.BlockLayout Encoding Catalog

/-! ## Nothing is left behind -/

section Flushed

variable {α γ C : Type} {fmt : BlockFormat α γ C} {codec : C} {lz4 : Lz4} {w w' : BlockWriter α}

/-- No mark is set aside while the current block is empty. -/
def BlockWriter.Settled (w : BlockWriter α) : Prop := w.blockValues = [] → w.pendingMarks = []

/-- A flush leaves no value and no mark behind. -/
theorem flushBlock_empty (settled : w.Settled) (flushed : flushBlock fmt codec lz4 w = .ok w') :
    w'.blockValues = [] ∧ w'.pendingMarks = [] := by
  unfold flushBlock at flushed
  split at flushed
  · rename_i empty
    cases flushed
    have none := List.isEmpty_iff.mp empty
    exact ⟨none, settled none⟩
  · obtain ⟨encoded, _, made⟩ := Outcome.bind_eq_ok.mp flushed
    cases made
    exact ⟨rfl, rfl⟩

theorem writeValue_settled {v : α} (written : writeValue fmt codec lz4 w v = .ok w') :
    w'.Settled := by
  have pushed : (pushValue fmt w v).Settled := by
    intro empty
    simp [pushValue] at empty
  simp only [writeValue] at written
  split at written
  · have reset : { pushValue fmt w v with rowsInCurrentGranule := 0 }.Settled := pushed
    split at written
    · exact fun _ => (flushBlock_empty reset written).2
    · cases written
      exact pushed
  · cases written
    exact pushed

theorem foldlM_settled {values : List α} (settled : w.Settled)
    (ran : values.foldlM (writeValue fmt codec lz4) w = .ok w') : w'.Settled := by
  induction values generalizing w with
  | nil =>
      cases ran
      exact settled
  | cons v values ih =>
      rw [List.foldlM_cons] at ran
      obtain ⟨next, written, ran⟩ := Outcome.bind_eq_ok.mp ran
      exact ih (writeValue_settled written) ran

/-- **No mark is left pending** when the files are flushed. -/
theorem writeBlocks_empty {values : List α} (written : writeBlocks fmt codec lz4 values = .ok w) :
    w.blockValues = [] ∧ w.pendingMarks = [] := by
  obtain ⟨last, ran, flushed⟩ := Outcome.bind_eq_ok.mp written
  exact flushBlock_empty (foldlM_settled (fun _ => rfl) ran) flushed

end Flushed

/-! ## Frames -/

/-- A frame of a data file. -/
structure Frame where
  tag : UInt8
  payload : Bytes

/-- `[u8 tag][u32 LE length][payload]`. -/
def Frame.bytes (f : Frame) : Bytes := frame f.tag f.payload

theorem Frame.bytes_length_pos (f : Frame) : 0 < f.bytes.length := by simp [bytes, frame]

/-- Where frames begin that fill a file from its beginning. -/
def frameStarts (frames : List Frame) : List Nat := offsetsFrom (fun f => f.bytes.length) 0 frames

section Layout

variable {T : Type} [Primitive T]

/-- The values of a block, serialized. -/
def plainBytes (block : List T) : Bytes := block.flatMap Primitive.encodeLe

theorem plainBytes_length (block : List T) :
    (plainBytes block).length = Primitive.width T * block.length :=
  length_flatMap_of_width fun v _ => Primitive.encodeLe_length v

/-- A frame at an offset holds a block: it is the encoded block, the marks with its offset are
those of the granules of the block, and no run in the block reaches the greatest count. -/
structure FrameHolds (lz4 : Lz4) (codec : Codec) (marks : List Mark) (offset : Nat) (f : Frame)
    (block : List T) : Prop where
  tag : f.tag = codec.tag
  fits : f.payload.length < 2 ^ 32
  decodes : ∃ encoded, lz4.decompressSizePrepended f.payload = .ok encoded ∧
    codec.decode encoded (Primitive.width T) [] = .ok (plainBytes block)
  nonempty : block ≠ []
  count : block.length ≤ blockBufferSize
  marks : (marks.filter fun m => m.blockOffset = offset).map Mark.decompressedOffset =
    (List.range (BlockLayout.granuleCount granuleSize block.length)).map
      fun i => granuleSize * Primitive.width T * i
  runs : ∃ pairs : List (Rle.Pair (Primitive.width T)),
    Rle.encode (plainBytes block) (Primitive.width T) [] = .ok (pairs.flatMap Rle.Pair.bytes) ∧
      (∀ p ∈ pairs, p.count < Rle.maxCount) ∧ pairs.IsChain fun p q => p.value ≠ q.value

/-- **The layout of a column** in its data file and its marks: the frames fill the file, the
marks name their beginnings in order, and each frame holds a block of the values, of which only
the last may be short. -/
structure ColumnLayout (lz4 : Lz4) (codec : Codec) (values : List T) (bin : Bytes)
    (marks : List Mark) (frames : List Frame) (blocks : List (List T)) : Prop where
  tiles : bin = frames.flatMap Frame.bytes
  starts : (marks.map Mark.blockOffset).dedup = frameStarts frames
  increasing : (frameStarts frames).Pairwise (· < ·)
  sorted : (marks.map Mark.blockOffset).Pairwise (· ≤ ·)
  holds : List.Forall₂ (fun entry block => FrameHolds lz4 codec marks entry.1 entry.2 block)
    ((frameStarts frames).zip frames) blocks
  values : blocks.flatten = values
  full : ∀ block ∈ blocks.dropLast, (plainBytes block).length = blockBufferSize
  last : ∀ block ∈ blocks, (plainBytes block).length ≤ blockBufferSize

/-- The block size is that of whole granules, whatever the width of the values. -/
theorem exists_blockValues : ∃ n, granuleSize ∣ n ∧ blockBufferSize = Primitive.width T * n := by
  rcases Primitive.width_supported (T := T) with width | width | width | width
  · exact ⟨8192, by decide, by rw [width]; rfl⟩
  · exact ⟨4096, by decide, by rw [width]; rfl⟩
  · exact ⟨2048, by decide, by rw [width]; rfl⟩
  · exact ⟨1024, by decide, by rw [width]; rfl⟩

/-- The sizes of the blocks of a column. -/
theorem blocksOf_sizes (values : List T) :
    (∀ b ∈ (blocksOf (columnFormat T) values).dropLast,
      (plainBytes b).length = blockBufferSize) ∧
    ∀ b ∈ blocksOf (columnFormat T) values, (plainBytes b).length ≤ blockBufferSize := by
  obtain ⟨n, whole, exact⟩ := exists_blockValues (T := T)
  have some : 0 < n := Nat.pos_of_ne_zero fun none => by
    rw [none, Nat.mul_zero] at exact
    cases exact
  obtain ⟨full, last⟩ := @cut_length_eq T (columnFormat T).size _ _ _ _ (Primitive.width_pos T)
    (fun _ => rfl) whole exact values [] some
  refine ⟨fun b member => ?_, fun b member => ?_⟩
  · rw [plainBytes_length, full b member, exact]
  · rw [plainBytes_length, exact]
    exact Nat.mul_le_mul_left _ (last b member)

/-- The runs of a block that is not above the block size. -/
theorem exists_runs {block : List T} (short : block.length ≤ blockBufferSize) :
    ∃ pairs : List (Rle.Pair (Primitive.width T)),
      Rle.encode (plainBytes block) (Primitive.width T) [] = .ok (pairs.flatMap Rle.Pair.bytes) ∧
        (∀ p ∈ pairs, p.count < Rle.maxCount) ∧ pairs.IsChain fun p q => p.value ≠ q.value := by
  have widths : ∀ p ∈ block.map Primitive.encodeLe, p.length = Primitive.width T := by
    intro p member
    obtain ⟨v, _, rfl⟩ := List.mem_map.mp member
    exact Primitive.encodeLe_length v
  have few : block.length < Rle.maxCount := lt_of_le_of_lt short (by decide)
  obtain ⟨pairs, encoded, counts, chain⟩ :=
    Rle.encode_pairs (Primitive.width_pos T) widths (by rwa [List.length_map])
  refine ⟨pairs, ?_, fun p member => ?_, chain⟩
  · rw [plainBytes, List.flatMap_def, encoded, List.nil_append]
  · have bound := counts p member
    rw [List.length_map] at bound
    omega

/-- The frame of a block. -/
def frameOf (lz4 : Lz4) (codec : Codec) (enc : List T → Bytes) (block : List T) : Frame :=
  ⟨codec.tag, lz4.compressPrependSize (enc block)⟩

variable {lz4 : Lz4} {codec : Codec} {enc : List T → Bytes} {blocks : List (List T)}

theorem map_blockOffset_blockMarks (blocks : List (List T)) :
    (blockMarks (columnFormat T) codec lz4 enc 0 blocks).map Mark.blockOffset =
      (marksFrom (storedSize (columnFormat T) codec lz4 enc) granuleSize 0 blocks).map
        Prod.fst := by
  rw [blockMarks, List.map_map]
  rfl

/-- The marks with the offset of a block, as the writer counts: in bytes of the block. -/
theorem marks_of_blockAt {offset : Nat} {block : List T}
    (stored : BlockAt (storedSize (columnFormat T) codec lz4 enc) 0 blocks offset block) :
    ((blockMarks (columnFormat T) codec lz4 enc 0 blocks).filter
        fun m => m.blockOffset = offset).map Mark.decompressedOffset =
      (List.range (BlockLayout.granuleCount granuleSize block.length)).map
        fun i => granuleSize * Primitive.width T * i := by
  have found := filter_marksFrom (g := granuleSize) (fun b _ => storedSize_pos enc b) stored
  have same : (fun m : Mark => decide (m.blockOffset = offset)) ∘ toMark (columnFormat T).unit =
      fun mark => decide (mark.1 = offset) := rfl
  rw [blockMarks, List.filter_map, same, found, List.map_map, List.map_map, BlockLayout.starts,
    List.map_map]
  refine List.map_congr_left fun i _ => ?_
  show granuleSize * i * Primitive.width T = granuleSize * Primitive.width T * i
  rw [Nat.mul_right_comm]

/-- **The layout of what is written.** -/
theorem columnLayout_of_blocks (values : List T)
    (spec : ∀ b, (enc b).length ≤ 3 * (Primitive.width T * b.length) ∧
      (columnFormat T).encode codec b = .ok (enc b) ∧
      (columnFormat T).decode codec (enc b) = .ok (b.flatMap Primitive.encodeLe)) :
    ColumnLayout lz4 codec values
      ((blocksOf (columnFormat T) values).flatMap (storedBlock (columnFormat T) codec lz4 enc))
      (blockMarks (columnFormat T) codec lz4 enc 0 (blocksOf (columnFormat T) values))
      ((blocksOf (columnFormat T) values).map (frameOf lz4 codec enc))
      (blocksOf (columnFormat T) values) := by
  set blocks := blocksOf (columnFormat T) values with cutBlocks
  obtain ⟨full, last⟩ := cutBlocks ▸ blocksOf_sizes values
  have nonempty : ∀ b ∈ blocks, b ≠ [] := ne_nil_of_aligned (blocksOf_aligned values)
  have starts : frameStarts (blocks.map (frameOf lz4 codec enc)) =
      offsetsFrom (storedSize (columnFormat T) codec lz4 enc) 0 blocks := offsetsFrom_map _ _ _
  refine
    { tiles := ?_
      starts := ?_
      increasing := offsetsFrom_increasing fun f _ => f.bytes_length_pos
      sorted := ?_
      holds := ?_
      values := blocksOf_flatten values
      full := full
      last := last }
  · rw [List.flatMap_map]
    rfl
  · rw [map_blockOffset_blockMarks, starts]
    exact dedup_map_fst_marksFrom granuleSize_pos nonempty (fun b _ => storedSize_pos enc b) 0
  · rw [map_blockOffset_blockMarks]
    exact map_fst_marksFrom_sorted 0 blocks
  · rw [starts, List.zip_map_right, List.forall₂_map_left_iff]
    refine (forall₂_zip_right (forall₂_blockAt 0 blocks)).imp ?_
    rintro ⟨offset, block⟩ _ ⟨stored, rfl⟩
    have readable := readable_of_mem_blocksOf lz4 spec (cutBlocks ▸ stored.mem)
    have short := last block stored.mem
    rw [plainBytes_length] at short
    have count : block.length ≤ blockBufferSize :=
      (Nat.le_mul_of_pos_left _ (Primitive.width_pos T)).trans short
    exact
      { tag := rfl
        fits := readable.compressed_lt
        decodes := ⟨enc block, lz4.decompress_compress _ readable.encoded_lt, (spec block).2.2⟩
        nonempty := nonempty block stored.mem
        count := count
        marks := marks_of_blockAt stored
        runs := exists_runs count }

/-- **The layout of a written column.** After `writeColumn` the data file is tiled by frames from
its beginning to its end. The mark file names the beginnings of the frames, in order and no
other offset; the marks of one frame are `512 * w` bytes apart from its first value to its last.
Every frame but the last decodes to exactly 8192 bytes and the last to at most as many, so that
no frame has more than 8192 values and no run of one reaches the greatest count. The writer has
flushed all values and all marks. -/
theorem writeColumn_layout (lz4 : Lz4) (t : FixedType) (codec : Codec)
    (partDir partDir' : PartDir) (colName : String) (values : List t.Native)
    (entry : Option (ZoneMapEntry t.Native))
    (written : writeColumn lz4 partDir colName values codec = .ok (partDir', entry)) :
    ∃ (w : BlockWriter t.Native) (frames : List Frame) (blocks : List (List t.Native)),
      writeBlocks (columnFormat t.Native) codec lz4 values = .ok w ∧
      w.blockValues = [] ∧ w.pendingMarks = [] ∧
      partDir' (.bin colName) = some w.bin ∧ partDir' (.mrk colName) = some (markBytes w.marks) ∧
      readAllMarks (markBytes w.marks) = w.marks ∧
      ColumnLayout lz4 codec values w.bin w.marks frames blocks := by
  obtain ⟨dir, column, last⟩ := Outcome.bind_eq_ok.mp written
  cases last
  obtain ⟨enc, spec⟩ := exists_encoded (T := t.Native) codec
  obtain ⟨w, run, bin, marks⟩ := @writeBlocks_eq _ _ _ (columnFormat t.Native) codec lz4 enc
    (fun b => (spec b).2.1) values
  obtain ⟨stored, _⟩ := writeBlockColumn_eq_ok (fun b => (spec b).2.1)
    (fun b member => readable_of_mem_blocksOf lz4 spec member) column
  obtain ⟨noValue, noMark⟩ := writeBlocks_empty run
  have layout := @columnLayout_of_blocks _ _ lz4 codec enc values spec
  have read := readAllMarks_markBytes stored.marks_inRange
  have data := stored.bin
  have marked := stored.mrk
  rw [← bin] at data
  rw [← bin, ← marks] at layout
  rw [← marks] at read marked
  exact ⟨w, _, _, run, noValue, noMark, data, marked, read, layout⟩

end Layout

/-- Seven values in four runs. -/
def sevenValues : List (FixedType.int .i8).Native :=
  [3, 3, -4, 1, 1, 1, 90].map (MachineInt.wrap true 7)

/-- They are written in one frame. -/
theorem writeColumn_layout_seven : ∃ partDir' entry, ∃ w : BlockWriter (FixedType.int .i8).Native,
    ∃ frames blocks,
      writeColumn Lz4.literals PartDir.empty "a" sevenValues .rle = .ok (partDir', entry) ∧
      w.pendingMarks = [] ∧ partDir' (.bin "a") = some w.bin ∧
      ColumnLayout Lz4.literals .rle sevenValues w.bin w.marks frames blocks := by
  have written : ∃ partDir' entry,
      writeColumn Lz4.literals PartDir.empty "a" sevenValues .rle = .ok (partDir', entry) :=
    ⟨_, _, rfl⟩
  obtain ⟨partDir', entry, written⟩ := written
  obtain ⟨w, frames, blocks, _, _, noMark, data, _, _, layout⟩ :=
    writeColumn_layout _ (.int .i8) _ _ _ _ _ _ written
  exact ⟨partDir', entry, w, frames, blocks, written, noMark, data, layout⟩

end TinyOlap.Storage
