import TinyOlap.Config
import TinyOlap.Library.BlockLayout
import TinyOlap.Storage.Files
import TinyOlap.Storage.Lz4
import TinyOlap.Storage.Mark

/-!
# Writing and reading a column in blocks

Numeric and string columns are written by the same loop: values are gathered in a
block, a mark is set aside at the first value of every granule, and at the end of a
granule the block is flushed if it has become large enough. Only then is the offset
of the block known, with which the marks set aside are completed. The columns differ
in how a value counts towards the size of a block, in the unit of the offsets inside
a decoded block, and in the codec: this is a `BlockFormat`.

`writeBlocks_eq` says what is written: the blocks cut by `BlockLayout.cut`, one frame
each, and their marks. `readGranule_eq` says what is read: whatever block is in the
cache, the granule asked for. -/

set_option autoImplicit false

namespace TinyOlap.Storage

open Library Library.BlockLayout Encoding

/-- What distinguishes a numeric column from a string column: `α` are the values, `γ`
the elements of a decoded block and `C` the codecs. -/
structure BlockFormat (α γ C : Type) where
  /-- What a value adds to the size of the block being gathered. -/
  size : α → Nat
  /-- How many elements of a decoded block stand for one value. -/
  unit : Nat
  /-- The elements that stand for a value. -/
  piece : α → List γ
  /-- The values that given elements stand for. -/
  values : List γ → List α
  tag : C → UInt8
  fromTag : UInt8 → Outcome EncodingError C
  encode : C → List α → Outcome EncodingError Bytes
  decode : C → Bytes → Outcome EncodingError (List γ)
  piece_length : ∀ v, (piece v).length = unit
  values_pieces : ∀ vs, values (vs.flatMap piece) = vs
  fromTag_tag : ∀ codec, fromTag (tag codec) = .ok codec

/-- `[u8 codec_tag][u32 LE compressed_len][compressed bytes]`. -/
def frame (tag : UInt8) (compressed : Bytes) : Bytes :=
  tag :: (leBytes 4 compressed.length ++ compressed)

/-! ## Writing -/

/-- The state of the write loop. The marks set aside are the offsets inside the
current block, whose own offset is not known yet. -/
structure BlockWriter (α : Type) where
  blockValues : List α
  pendingMarks : List Nat
  rowsInCurrentGranule : Nat
  rowsInCurrentBlock : Nat
  plainBytesInBlock : Nat
  /-- What has been written to the data file. -/
  bin : Bytes
  /-- The completed marks. -/
  marks : List Mark

namespace BlockWriter

def new (α : Type) : BlockWriter α := ⟨[], [], 0, 0, 0, [], []⟩

end BlockWriter

section Writing

variable {α γ C : Type} (fmt : BlockFormat α γ C) (codec : C) (lz4 : Lz4)

/-- Encode, compress and write the current block, and complete its marks. -/
def flushBlock (w : BlockWriter α) : IoResult (BlockWriter α) :=
  if w.blockValues.isEmpty then .ok w
  else do
    let encoded ← (fmt.encode codec w.blockValues).mapErr encodingError
    let compressed := lz4.compressPrependSize encoded
    let blockOffset := w.bin.length
    .ok { w with
      blockValues := []
      pendingMarks := []
      rowsInCurrentBlock := 0
      plainBytesInBlock := 0
      bin := w.bin ++ frame (fmt.tag codec) compressed
      marks := w.marks ++ w.pendingMarks.map fun inside => ⟨blockOffset, inside⟩ }

/-- Append a value to the current block, setting a mark aside if it is the first of a
granule. -/
def pushValue (w : BlockWriter α) (v : α) : BlockWriter α :=
  { w with
    pendingMarks :=
      if w.rowsInCurrentGranule = 0 then w.pendingMarks ++ [w.rowsInCurrentBlock * fmt.unit]
      else w.pendingMarks
    blockValues := w.blockValues ++ [v]
    rowsInCurrentGranule := w.rowsInCurrentGranule + 1
    rowsInCurrentBlock := w.rowsInCurrentBlock + 1
    plainBytesInBlock := w.plainBytesInBlock + fmt.size v }

/-- One iteration of the write loop: only the end of a granule may flush. -/
def writeValue (w : BlockWriter α) (v : α) : IoResult (BlockWriter α) :=
  let w := pushValue fmt w v
  if w.rowsInCurrentGranule = granuleSize then
    let w := { w with rowsInCurrentGranule := 0 }
    if blockBufferSize ≤ w.plainBytesInBlock then flushBlock fmt codec lz4 w else .ok w
  else .ok w

/-- The write loop and the flush of the tail block. -/
def writeBlocks (values : List α) : IoResult (BlockWriter α) := do
  let w ← values.foldlM (writeValue fmt codec lz4) (.new α)
  flushBlock fmt codec lz4 w

/-- Create the two files of a column, write the blocks, and flush both files. -/
def writeBlockColumn (partDir : PartDir) (colName : String) (values : List α) :
    IoResult PartDir := do
  let partDir ← partDir.create (.bin colName)
  let partDir ← partDir.create (.mrk colName)
  let w ← writeBlocks fmt codec lz4 values
  let partDir ← partDir.write (.bin colName) w.bin
  partDir.write (.mrk colName) (markBytes w.marks)

end Writing

/-! ## Reading -/

/-- An open column: the data file, the marks, and the last block that was decoded,
with its offset. -/
structure BlockReader (γ : Type) where
  bin : Bytes
  marks : List Mark
  cache : Option (Nat × List γ)

namespace BlockReader

def «open» (γ : Type) (partDir : PartDir) (colName : String) : IoResult (BlockReader γ) := do
  let bin ← partDir.read (.bin colName)
  let marks ← partDir.read (.mrk colName)
  .ok ⟨bin, readAllMarks marks, none⟩

def granuleCount {γ : Type} (r : BlockReader γ) : Nat := r.marks.length

end BlockReader

section Reading

variable {α γ C : Type} (fmt : BlockFormat α γ C) (lz4 : Lz4)

/-- Read and decode the block at an offset. -/
def readBlock (bin : Bytes) (offset : Nat) : IoResult (List γ) := do
  let tag ← readExact bin offset 1
  let codec ← (fmt.fromTag (tag.headD 0)).mapErr encodingError
  let lenBuf ← readExact bin (offset + 1) 4
  let compressed ← readExact bin (offset + 5) (leNat lenBuf)
  let decompressed ← .ofExcept (fun text => ⟨.invalidData, text⟩)
    (lz4.decompressSizePrepended compressed)
  (fmt.decode codec decompressed).mapErr encodingError

/-- The block at an offset, from the cache if it is there. -/
def cachedBlock (r : BlockReader γ) (offset : Nat) : IoResult (List γ) :=
  match r.cache with
  | some (off, block) => if off = offset then .ok block else readBlock fmt lz4 r.bin offset
  | none => readBlock fmt lz4 r.bin offset

/-- Where a granule ends in its block: at the next mark if that is in the same block,
otherwise with the block. -/
def granuleEnd (marks : List Mark) (idx : Nat) (mark : Mark) (len : Nat) : Nat :=
  match marks[idx + 1]? with
  | some next => if next.blockOffset = mark.blockOffset then next.decompressedOffset else len
  | none => len

/-- The values of a granule, and the reader with the block of the granule cached. -/
def readGranule (r : BlockReader γ) (idx : Nat) : IoResult (List α × BlockReader γ) := do
  let mark ← .orPanic r.marks[idx]?
  let block ← cachedBlock fmt lz4 r mark.blockOffset
  let start := mark.decompressedOffset
  let stop := granuleEnd r.marks idx mark block.length
  if start ≤ stop ∧ stop ≤ block.length then
    .ok (fmt.values ((block.drop start).take (stop - start)),
      { r with cache := some (mark.blockOffset, block) })
  else .panic

/-- A sequence of calls of `readGranule` on one reader. -/
def readGranules (r : BlockReader γ) : List Nat → IoResult (List (List α) × BlockReader γ)
  | [] => .ok ([], r)
  | idx :: rest => do
      let (granule, r) ← readGranule fmt lz4 r idx
      let (granules, r) ← readGranules r rest
      .ok (granule :: granules, r)

end Reading

/-! ## What is written -/

section Layout

variable {α γ C : Type} {fmt : BlockFormat α γ C} {codec : C} {lz4 : Lz4}

/-- The blocks the values of a column are stored in. -/
def blocksOf (fmt : BlockFormat α γ C) (values : List α) : List (List α) :=
  cut granuleSize blockBufferSize fmt.size [] values

theorem blocksOf_flatten (values : List α) : (blocksOf fmt values).flatten = values :=
  cut_flatten [] values

theorem blocksOf_aligned (values : List α) : Aligned granuleSize (blocksOf fmt values) :=
  cut_aligned [] values

/-- A block in the data file, given its encoded form. -/
def storedBlock (fmt : BlockFormat α γ C) (codec : C) (lz4 : Lz4) (enc : List α → Bytes)
    (block : List α) : Bytes :=
  frame (fmt.tag codec) (lz4.compressPrependSize (enc block))

/-- The size of a block in the data file. -/
abbrev storedSize (fmt : BlockFormat α γ C) (codec : C) (lz4 : Lz4) (enc : List α → Bytes)
    (block : List α) : Nat :=
  (storedBlock fmt codec lz4 enc block).length

theorem storedSize_pos (enc : List α → Bytes) (block : List α) :
    0 < storedSize fmt codec lz4 enc block := by
  simp [storedSize, storedBlock, frame]

/-- A position counted in values as a mark, which counts in elements. -/
def toMark (unit : Nat) (position : Nat × Nat) : Mark := ⟨position.1, position.2 * unit⟩

/-- The marks of blocks stored one after the other, the first of them at `off`. -/
def blockMarks (fmt : BlockFormat α γ C) (codec : C) (lz4 : Lz4) (enc : List α → Bytes)
    (off : Nat) (blocks : List (List α)) : List Mark :=
  (marksFrom (storedSize fmt codec lz4 enc) granuleSize off blocks).map (toMark fmt.unit)

/-- The state of the loop with a given current block. -/
def writerAt (fmt : BlockFormat α γ C) (block : List α) (bin : Bytes) (marks : List Mark) :
    BlockWriter α where
  blockValues := block
  pendingMarks := (starts granuleSize block).map (· * fmt.unit)
  rowsInCurrentGranule := block.length % granuleSize
  rowsInCurrentBlock := block.length
  plainBytesInBlock := totalSize fmt.size block
  bin := bin
  marks := marks

variable {enc : List α → Bytes}

/-- Flushing writes the block and its marks. -/
theorem flushBlock_writerAt (encodes : ∀ b, fmt.encode codec b = .ok (enc b)) {block : List α}
    (nonempty : block ≠ []) (bin : Bytes) (marks : List Mark) (rows : Nat) :
    flushBlock fmt codec lz4 { writerAt fmt block bin marks with rowsInCurrentGranule := rows } =
      .ok { writerAt fmt [] (bin ++ storedBlock fmt codec lz4 enc block)
              (marks ++ blockMarks fmt codec lz4 enc bin.length [block]) with
            rowsInCurrentGranule := rows } := by
  have some : block.isEmpty = false := by simpa using nonempty
  simp [flushBlock, writerAt, some, encodes, storedBlock, blockMarks, marksFrom, starts,
    granuleCount_zero granuleSize_pos, totalSize, toMark, Function.comp_def]

theorem pushValue_writerAt (block : List α) (bin : Bytes) (marks : List Mark) (v : α) :
    pushValue fmt (writerAt fmt block bin marks) v =
      { writerAt fmt (block ++ [v]) bin marks with
        rowsInCurrentGranule := block.length % granuleSize + 1 } := by
  by_cases boundary : block.length % granuleSize = 0
  · have opened := starts_concat_of_dvd granuleSize_pos (Nat.dvd_of_mod_eq_zero boundary) v
    simp [pushValue, writerAt, boundary, opened, totalSize]
  · have same := starts_concat_of_not_dvd granuleSize_pos
      (fun whole => boundary (Nat.mod_eq_zero_of_dvd whole)) v
    simp [pushValue, writerAt, boundary, same, totalSize]

/-- The value goes into the current block, which is flushed if this completes it. -/
theorem writeValue_writerAt (encodes : ∀ b, fmt.encode codec b = .ok (enc b)) (block : List α)
    (bin : Bytes) (marks : List Mark) (v : α) :
    writeValue fmt codec lz4 (writerAt fmt block bin marks) v =
      if Complete granuleSize blockBufferSize fmt.size (block ++ [v]) then
        .ok (writerAt fmt [] (bin ++ storedBlock fmt codec lz4 enc (block ++ [v]))
          (marks ++ blockMarks fmt codec lz4 enc bin.length [block ++ [v]]))
      else .ok (writerAt fmt (block ++ [v]) bin marks) := by
  have lower : block.length % granuleSize < granuleSize := Nat.mod_lt _ granuleSize_pos
  have next : (block ++ [v]).length % granuleSize =
      if block.length % granuleSize + 1 = granuleSize then 0
      else block.length % granuleSize + 1 := by
    rw [List.length_append, List.length_singleton, Nat.add_mod, show 1 % granuleSize = 1 from rfl]
    split
    · rename_i boundary
      rw [boundary, Nat.mod_self]
    · exact Nat.mod_eq_of_lt (by omega)
  rw [writeValue, pushValue_writerAt]
  by_cases boundary : block.length % granuleSize + 1 = granuleSize
  · rw [if_pos boundary] at next
    have whole : granuleSize ∣ (block ++ [v]).length := Nat.dvd_of_mod_eq_zero next
    have reset : { writerAt fmt (block ++ [v]) bin marks with rowsInCurrentGranule := 0 } =
        writerAt fmt (block ++ [v]) bin marks := by
      rw [writerAt, next]
    simp only [boundary, if_true]
    by_cases full : blockBufferSize ≤ totalSize fmt.size (block ++ [v])
    · have complete : Complete granuleSize blockBufferSize fmt.size (block ++ [v]) := ⟨whole, full⟩
      have nonempty : block ++ [v] ≠ [] := by simp
      rw [if_pos complete]
      exact (if_pos full).trans (flushBlock_writerAt encodes nonempty bin marks 0)
    · have incomplete : ¬ Complete granuleSize blockBufferSize fmt.size (block ++ [v]) :=
        fun complete => full complete.2
      rw [if_neg incomplete]
      exact (if_neg full).trans (congrArg Outcome.ok reset)
  · rw [if_neg boundary] at next
    have inside : ¬ Complete granuleSize blockBufferSize fmt.size (block ++ [v]) := by
      intro complete
      rw [Nat.mod_eq_zero_of_dvd complete.1] at next
      omega
    simp only [boundary, if_false]
    rw [if_neg inside, ← next]
    rfl

theorem blockMarks_cons (off : Nat) (b : List α) (bs : List (List α)) :
    blockMarks fmt codec lz4 enc off (b :: bs) =
      blockMarks fmt codec lz4 enc off [b] ++
        blockMarks fmt codec lz4 enc (off + storedSize fmt codec lz4 enc b) bs := by
  simp [blockMarks, marksFrom]

/-- The loop from any current block: what is written from there on are the blocks cut
from there on. -/
theorem foldlM_writeValue (encodes : ∀ b, fmt.encode codec b = .ok (enc b)) (values : List α) :
    ∀ (block : List α) (bin : Bytes) (marks : List Mark),
      ∃ w, (values.foldlM (writeValue fmt codec lz4) (writerAt fmt block bin marks) >>=
          flushBlock fmt codec lz4) = .ok w ∧
        w.bin = bin ++ (cut granuleSize blockBufferSize fmt.size block values).flatMap
          (storedBlock fmt codec lz4 enc) ∧
        w.marks = marks ++ blockMarks fmt codec lz4 enc bin.length
          (cut granuleSize blockBufferSize fmt.size block values) := by
  induction values with
  | nil =>
      intro block bin marks
      rw [List.foldlM_nil, Outcome.pure_eq_ok, Outcome.ok_bind, cut]
      by_cases empty : block = []
      · subst empty
        exact ⟨writerAt fmt [] bin marks, rfl, by simp [writerAt], by
          simp [writerAt, blockMarks, marksFrom]⟩
      · rw [if_neg empty]
        exact ⟨_, flushBlock_writerAt encodes empty bin marks (block.length % granuleSize),
          by simp [writerAt], by simp [writerAt]⟩
  | cons v values ih =>
      intro block bin marks
      rw [List.foldlM_cons, writeValue_writerAt encodes, cut]
      split
      · rw [Outcome.ok_bind]
        obtain ⟨w, run, data, marked⟩ := ih [] (bin ++ storedBlock fmt codec lz4 enc (block ++ [v]))
          (marks ++ blockMarks fmt codec lz4 enc bin.length [block ++ [v]])
        refine ⟨w, run, ?_, ?_⟩
        · rw [data, List.flatMap_cons, List.append_assoc]
        · rw [marked, blockMarks_cons _ (block ++ [v]) (cut _ _ _ [] values), List.append_assoc,
            List.length_append]
      · rw [Outcome.ok_bind]
        exact ih _ bin marks

/-- **What is written**: one frame for each block that is cut, and the marks of these
blocks. -/
theorem writeBlocks_eq (encodes : ∀ b, fmt.encode codec b = .ok (enc b)) (values : List α) :
    ∃ w, writeBlocks fmt codec lz4 values = .ok w ∧
      w.bin = (blocksOf fmt values).flatMap (storedBlock fmt codec lz4 enc) ∧
      w.marks = blockMarks fmt codec lz4 enc 0 (blocksOf fmt values) := by
  have start : BlockWriter.new α = writerAt fmt [] [] [] := by
    simp [BlockWriter.new, writerAt, starts, granuleCount_zero granuleSize_pos, totalSize]
  obtain ⟨w, run, data, marked⟩ := foldlM_writeValue encodes values [] [] []
  exact ⟨w, by rw [writeBlocks, start, run], data, marked⟩

/-! ## What is read -/

/-- A block that can be read back: its encoded form decodes, and every number written
about it fits its field. -/
structure Readable (fmt : BlockFormat α γ C) (codec : C) (lz4 : Lz4) (enc : List α → Bytes)
    (block : List α) : Prop where
  decodes : fmt.decode codec (enc block) = .ok (block.flatMap fmt.piece)
  encoded_lt : (enc block).length < 2 ^ 32
  compressed_lt : (lz4.compressPrependSize (enc block)).length < 2 ^ 32
  offsets_lt : block.length * fmt.unit < 2 ^ 64

/-- The reader is open on the given blocks, and its cache, if filled, holds the block
whose offset it names. -/
structure OpenOn (fmt : BlockFormat α γ C) (codec : C) (lz4 : Lz4) (enc : List α → Bytes)
    (blocks : List (List α)) (r : BlockReader γ) : Prop where
  data : r.bin = blocks.flatMap (storedBlock fmt codec lz4 enc)
  marked : r.marks = blockMarks fmt codec lz4 enc 0 blocks
  cached : ∀ offset decoded, r.cache = some (offset, decoded) →
    ∃ b, BlockAt (storedSize fmt codec lz4 enc) 0 blocks offset b ∧
      decoded = b.flatMap fmt.piece

/-- Reading at the offset of a block decodes the block. -/
theorem readBlock_at {blocks : List (List α)} {offset : Nat} {b : List α}
    (stored : BlockAt (storedSize fmt codec lz4 enc) 0 blocks offset b)
    (readable : Readable fmt codec lz4 enc b) :
    readBlock fmt lz4 (blocks.flatMap (storedBlock fmt codec lz4 enc)) offset =
      .ok (b.flatMap fmt.piece) := by
  obtain ⟨rest, here⟩ := stored.drop_flatMap
  set bin := blocks.flatMap (storedBlock fmt codec lz4 enc)
  set compressed := lz4.compressPrependSize (enc b) with payload
  rw [Nat.sub_zero, storedBlock, frame, ← payload] at here
  have inside : offset + 5 ≤ bin.length := by
    have := congrArg List.length here
    simp only [List.length_drop, List.length_append, List.length_cons, leBytes_length] at this
    omega
  have atTag : bin.drop offset = [fmt.tag codec] ++ (leBytes 4 compressed.length ++ compressed ++
      rest) := by
    rw [here]
    simp
  have atLength : bin.drop (offset + 1) = leBytes 4 compressed.length ++ (compressed ++ rest) := by
    rw [← List.drop_drop, atTag]
    simp
  have atBody : bin.drop (offset + 5) = compressed ++ rest := by
    rw [show offset + 5 = offset + 1 + 4 by omega, ← List.drop_drop, atLength]
    exact List.drop_left' (leBytes_length _ _)
  have length : leNat (leBytes 4 compressed.length) = compressed.length :=
    leNat_leBytes_of_lt (w := 4) (by have := readable.compressed_lt; omega)
  rw [readBlock, readExact_of_drop (n := 1) atTag rfl (by omega), Outcome.ok_bind,
    List.headD_cons, fmt.fromTag_tag, Outcome.mapErr_ok, Outcome.ok_bind,
    readExact_of_drop atLength (leBytes_length _ _) (by omega), Outcome.ok_bind, length,
    readExact_of_drop atBody rfl (by omega), Outcome.ok_bind, payload,
    lz4.decompress_compress _ readable.encoded_lt]
  simp [Outcome.ofExcept, readable.decodes]

/-- Where a granule ends, in elements, is where it ends in values. -/
theorem granuleEnd_blockMarks (off idx : Nat) (blocks : List (List α)) (offset inside len : Nat) :
    granuleEnd (blockMarks fmt codec lz4 enc off blocks) idx ⟨offset, inside⟩ (len * fmt.unit) =
      sliceEnd (marksFrom (storedSize fmt codec lz4 enc) granuleSize off blocks) idx offset len *
        fmt.unit := by
  rw [granuleEnd, sliceEnd, blockMarks, List.getElem?_map]
  cases (marksFrom (storedSize fmt codec lz4 enc) granuleSize off blocks)[idx + 1]? with
  | none => rfl
  | some next =>
      simp only [Option.map_some, toMark]
      split <;> rfl

/-- **What is read**: an open reader returns the granule it is asked for, whatever its
cache holds, and stays open on the same blocks. -/
theorem readGranule_eq {blocks : List (List α)} (aligned : Aligned granuleSize blocks)
    (readable : ∀ b ∈ blocks, Readable fmt codec lz4 enc b) {r : BlockReader γ}
    (isOpen : OpenOn fmt codec lz4 enc blocks r) {idx : Nat} (inRange : idx < r.granuleCount) :
    ∃ r', readGranule fmt lz4 r idx = .ok (granule granuleSize blocks.flatten idx, r') ∧
      OpenOn fmt codec lz4 enc blocks r' := by
  have marked := isOpen.marked
  rw [BlockReader.granuleCount, marked, blockMarks, List.length_map] at inRange
  obtain ⟨o, s, b, found, stored, lower, upper, slice⟩ :=
    slice_of_mark granuleSize_pos aligned
      (fun b _ => @storedSize_pos _ _ _ fmt codec lz4 enc b) inRange
  have mark : r.marks[idx]? = some ⟨o, s * fmt.unit⟩ := by
    rw [marked, blockMarks, List.getElem?_map, found]
    rfl
  have block : cachedBlock fmt lz4 r o = .ok (b.flatMap fmt.piece) := by
    have read := readBlock_at stored (readable b stored.mem)
    rw [← isOpen.data] at read
    unfold cachedBlock
    cases cache : r.cache with
    | none => exact read
    | some entry =>
        obtain ⟨offset, decoded⟩ := entry
        by_cases hit : offset = o
        · obtain ⟨c, storedCached, equal⟩ := isOpen.cached offset decoded cache
          have same : c = b := (hit ▸ storedCached).unique
            (fun d _ => storedSize_pos enc d) stored
          simp only [hit, if_true, equal, same]
        · simp only [hit, if_false, read]
  have length : (b.flatMap fmt.piece).length = b.length * fmt.unit := by
    rw [length_flatMap_of_width fun v _ => fmt.piece_length v, Nat.mul_comm]
  set stop := sliceEnd (marksFrom (storedSize fmt codec lz4 enc) granuleSize 0 blocks)
    idx o b.length
  have ends : granuleEnd r.marks idx ⟨o, s * fmt.unit⟩ (b.flatMap fmt.piece).length =
      stop * fmt.unit := by
    rw [marked, length, granuleEnd_blockMarks]
  have bounds : s * fmt.unit ≤ stop * fmt.unit ∧ stop * fmt.unit ≤ (b.flatMap fmt.piece).length :=
    ⟨Nat.mul_le_mul_right _ lower, length ▸ Nat.mul_le_mul_right _ upper⟩
  have values : fmt.values (((b.flatMap fmt.piece).drop (s * fmt.unit)).take
      (stop * fmt.unit - s * fmt.unit)) = granule granuleSize blocks.flatten idx := by
    rw [← Nat.sub_mul, Nat.mul_comm s, Nat.mul_comm (stop - s),
      drop_flatMap_of_width fun v _ => fmt.piece_length v,
      take_flatMap_of_width fun v _ => fmt.piece_length v, fmt.values_pieces, slice]
  refine ⟨{ r with cache := some (o, b.flatMap fmt.piece) }, ?_, isOpen.data, marked, ?_⟩
  · rw [readGranule, mark, Outcome.orPanic_some, Outcome.ok_bind, block, Outcome.ok_bind]
    simp only [ends, bounds, and_self, if_true, values]
  · intro offset decoded entry
    cases entry
    exact ⟨b, stored, rfl⟩

/-- The same for any sequence of calls. -/
theorem readGranules_eq {blocks : List (List α)} (aligned : Aligned granuleSize blocks)
    (readable : ∀ b ∈ blocks, Readable fmt codec lz4 enc b) (idxs : List Nat) :
    ∀ r : BlockReader γ, OpenOn fmt codec lz4 enc blocks r → (∀ i ∈ idxs, i < r.granuleCount) →
      ∃ r', readGranules fmt lz4 r idxs =
          .ok (idxs.map (granule granuleSize blocks.flatten), r') ∧
        OpenOn fmt codec lz4 enc blocks r' := by
  induction idxs with
  | nil => exact fun r isOpen _ => ⟨r, rfl, isOpen⟩
  | cons idx idxs ih =>
      intro r isOpen inRange
      obtain ⟨r₁, first, open₁⟩ := readGranule_eq aligned readable isOpen (inRange idx (by simp))
      have same : r₁.granuleCount = r.granuleCount := by
        rw [BlockReader.granuleCount, open₁.marked, BlockReader.granuleCount, isOpen.marked]
      obtain ⟨r₂, rest, open₂⟩ := ih r₁ open₁ fun i member => same ▸ inRange i (by simp [member])
      exact ⟨r₂, by simp [readGranules, first, rest], open₂⟩

/-! ## A column on disk -/

/-- The two files of a column hold the given values. -/
structure Stored (fmt : BlockFormat α γ C) (codec : C) (lz4 : Lz4) (enc : List α → Bytes)
    (partDir : PartDir) (colName : String) (values : List α) : Prop where
  legal : (FileName.bin colName).Legal
  bin : partDir (.bin colName) =
    some ((blocksOf fmt values).flatMap (storedBlock fmt codec lz4 enc))
  mrk : partDir (.mrk colName) =
    some (markBytes (blockMarks fmt codec lz4 enc 0 (blocksOf fmt values)))
  bin_length : ((blocksOf fmt values).flatMap (storedBlock fmt codec lz4 enc)).length < 2 ^ 64
  readable : ∀ b ∈ blocksOf fmt values, Readable fmt codec lz4 enc b

/-- The files depend on no other file of the directory. -/
theorem Stored.congr {partDir other : PartDir} {colName : String} {values : List α}
    (stored : Stored fmt codec lz4 enc partDir colName values)
    (bin : other (.bin colName) = partDir (.bin colName))
    (mrk : other (.mrk colName) = partDir (.mrk colName)) :
    Stored fmt codec lz4 enc other colName values :=
  ⟨stored.legal, bin.trans stored.bin, mrk.trans stored.mrk, stored.bin_length, stored.readable⟩

/-- Writing a column stores its values and touches no other file. -/
theorem writeBlockColumn_eq_ok (encodes : ∀ b, fmt.encode codec b = .ok (enc b))
    {partDir partDir' : PartDir} {colName : String} {values : List α}
    (readable : ∀ b ∈ blocksOf fmt values, Readable fmt codec lz4 enc b)
    (written : writeBlockColumn fmt codec lz4 partDir colName values = .ok partDir') :
    Stored fmt codec lz4 enc partDir' colName values ∧
      ∀ name, name ≠ .bin colName → name ≠ .mrk colName → partDir' name = partDir name := by
  obtain ⟨w, run, data, marked⟩ := @writeBlocks_eq _ _ _ fmt codec lz4 enc encodes values
  obtain ⟨dir₁, created₁, written⟩ := Outcome.bind_eq_ok.mp written
  obtain ⟨dir₂, created₂, written⟩ := Outcome.bind_eq_ok.mp written
  rw [run, Outcome.ok_bind] at written
  obtain ⟨dir₃, filled, written⟩ := Outcome.bind_eq_ok.mp written
  obtain ⟨legal, rfl⟩ := PartDir.create_eq_ok created₁
  obtain ⟨_, rfl⟩ := PartDir.create_eq_ok created₂
  obtain ⟨short, rfl⟩ := PartDir.write_eq_ok filled
  obtain ⟨_, rfl⟩ := PartDir.write_eq_ok written
  refine ⟨⟨legal, ?_, ?_, ?_, readable⟩, fun name notBin notMrk => ?_⟩
  · rw [PartDir.set_other _ (by simp), PartDir.set_same, data]
  · rw [PartDir.set_same, marked]
  · rw [← data]
    unfold PartDir.maxFileBytes at short
    omega
  · rw [PartDir.set_other _ notMrk, PartDir.set_other _ notBin, PartDir.set_other _ notMrk,
      PartDir.set_other _ notBin]

theorem OpenOn.granuleCount {values : List α} {r : BlockReader γ}
    (isOpen : OpenOn fmt codec lz4 enc (blocksOf fmt values) r) :
    r.granuleCount = BlockLayout.granuleCount granuleSize values.length := by
  rw [BlockReader.granuleCount, isOpen.marked, blockMarks, List.length_map,
    marksFrom_length granuleSize_pos (blocksOf_aligned values), blocksOf_flatten]

/-- An open column returns the granule it is asked for. -/
theorem OpenOn.readGranule {values : List α} {r : BlockReader γ}
    (isOpen : OpenOn fmt codec lz4 enc (blocksOf fmt values) r)
    (readable : ∀ b ∈ blocksOf fmt values, Readable fmt codec lz4 enc b) {idx : Nat}
    (inRange : idx < BlockLayout.granuleCount granuleSize values.length) :
    ∃ r', Storage.readGranule fmt lz4 r idx = .ok (granule granuleSize values idx, r') ∧
      OpenOn fmt codec lz4 enc (blocksOf fmt values) r' := by
  have read := readGranule_eq (blocksOf_aligned values) readable isOpen
    (isOpen.granuleCount ▸ inRange)
  rwa [blocksOf_flatten] at read

/-- The offsets in the marks are 64-bit numbers. -/
theorem Stored.marks_inRange {partDir : PartDir} {colName : String} {values : List α}
    (stored : Stored fmt codec lz4 enc partDir colName values) :
    ∀ m ∈ blockMarks fmt codec lz4 enc 0 (blocksOf fmt values), m.InRange := by
  intro m member
  obtain ⟨position, marked, rfl⟩ := List.mem_map.mp member
  obtain ⟨b, atOffset, inside⟩ := blockAt_of_mem_marksFrom granuleSize_pos marked
  refine ⟨?_, ?_⟩
  · have below := atOffset.offset_add_le
    have room := @storedSize_pos _ _ _ fmt codec lz4 enc b
    have total := stored.bin_length
    rw [List.length_flatMap] at total
    change position.1 < 2 ^ 64
    change _ ≤ 0 + (List.map (fun c => (storedBlock fmt codec lz4 enc c).length) _).sum at below
    omega
  · have fits := (stored.readable b atOffset.mem).offsets_lt
    exact lt_of_le_of_lt (Nat.mul_le_mul_right _ inside.le) fits

/-- A stored column can be opened, and has one granule for every 512 values begun. -/
theorem Stored.open {partDir : PartDir} {colName : String} {values : List α}
    (stored : Stored fmt codec lz4 enc partDir colName values) :
    ∃ r, BlockReader.open γ partDir colName = .ok r ∧
      OpenOn fmt codec lz4 enc (blocksOf fmt values) r ∧
      r.granuleCount = BlockLayout.granuleCount granuleSize values.length := by
  have isOpen : OpenOn fmt codec lz4 enc (blocksOf fmt values)
      ⟨(blocksOf fmt values).flatMap (storedBlock fmt codec lz4 enc),
        blockMarks fmt codec lz4 enc 0 (blocksOf fmt values), none⟩ := ⟨rfl, rfl, nofun⟩
  refine ⟨_, ?_, isOpen, isOpen.granuleCount⟩
  rw [BlockReader.open, PartDir.read_of_some stored.bin, Outcome.ok_bind,
    PartDir.read_of_some stored.mrk, Outcome.ok_bind, readAllMarks_markBytes stored.marks_inRange]

/-- **An open column returns the granules it is asked for**, in any order and with
repeats. -/
theorem OpenOn.readGranules {values : List α} {r : BlockReader γ}
    (isOpen : OpenOn fmt codec lz4 enc (blocksOf fmt values) r)
    (readable : ∀ b ∈ blocksOf fmt values, Readable fmt codec lz4 enc b) {idxs : List Nat}
    (inRange : ∀ i ∈ idxs, i < r.granuleCount) :
    ∃ r', Storage.readGranules fmt lz4 r idxs =
        .ok (idxs.map (granule granuleSize values), r') ∧
      OpenOn fmt codec lz4 enc (blocksOf fmt values) r' := by
  have read := readGranules_eq (blocksOf_aligned values) readable idxs r isOpen inRange
  rwa [blocksOf_flatten] at read

end Layout

end TinyOlap.Storage
