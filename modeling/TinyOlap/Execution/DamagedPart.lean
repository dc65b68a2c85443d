import TinyOlap.Encoding.Format
import TinyOlap.Execution.Scan
import TinyOlap.Library.Calls

/-!
# Reading a damaged part

What a scan does when the files of a part hold anything at all. A block that cannot be read, for
whatever reason, is an error, and the scan stays where it is. But a mark is believed: if there
is none for a granule, or if it points out of the block, or behind the next mark, the scan
panics. The first column says how many granules there are, and there is always taken to be one.
-/

set_option autoImplicit false

namespace TinyOlap.Storage

open Library Encoding

section Block

variable {α γ C : Type} (fmt : BlockFormat α γ C) (lz4 : Lz4)

/-! ## A granule of a column -/

/-- The granule has a mark, and is a slice of the block of the mark, if this can be read. -/
def SliceInside (bin : Bytes) (marks : List Mark) (idx : Nat) : Prop :=
  ∃ mark, marks[idx]? = some mark ∧
    ∀ block, readBlock fmt lz4 bin mark.blockOffset = .ok block →
      mark.decompressedOffset ≤ granuleEnd marks idx mark block.length ∧
      granuleEnd marks idx mark block.length ≤ block.length

/-- The granule has a mark whose block can be read. -/
def BlockReads (bin : Bytes) (marks : List Mark) (idx : Nat) : Prop :=
  ∃ mark, marks[idx]? = some mark ∧ ∃ block, readBlock fmt lz4 bin mark.blockOffset = .ok block

variable {fmt lz4} {r : BlockReader γ}

/-- The cached block is what would be read. -/
def CacheHolds (fmt : BlockFormat α γ C) (lz4 : Lz4) (r : BlockReader γ) : Prop :=
  ∀ off block, r.cache = some (off, block) → readBlock fmt lz4 r.bin off = .ok block

theorem cachedBlock_eq (holds : CacheHolds fmt lz4 r) (offset : Nat) :
    cachedBlock fmt lz4 r offset = readBlock fmt lz4 r.bin offset := by
  unfold cachedBlock
  cases cache : r.cache with
  | none => rfl
  | some entry =>
      obtain ⟨off, block⟩ := entry
      by_cases hit : off = offset
      · subst hit
        simp [holds off block cache]
      · simp [hit]

/-- **Reading a granule** of any files. -/
theorem readGranule_cases (holds : CacheHolds fmt lz4 r) (idx : Nat)
    (decodes : ∀ offset, readBlock fmt lz4 r.bin offset ≠ .panic) :
    (¬ SliceInside fmt lz4 r.bin r.marks idx ∧ readGranule fmt lz4 r idx = .panic) ∨
    (SliceInside fmt lz4 r.bin r.marks idx ∧ ¬ BlockReads fmt lz4 r.bin r.marks idx ∧
      ∃ e, readGranule fmt lz4 r idx = .err e) ∨
    (SliceInside fmt lz4 r.bin r.marks idx ∧ ∃ mark block, r.marks[idx]? = some mark ∧
      readBlock fmt lz4 r.bin mark.blockOffset = .ok block ∧
      readGranule fmt lz4 r idx = .ok (fmt.values ((block.drop mark.decompressedOffset).take
          (granuleEnd r.marks idx mark block.length - mark.decompressedOffset)),
        { r with cache := some (mark.blockOffset, block) })) := by
  unfold readGranule
  cases here : r.marks[idx]? with
  | none =>
      refine .inl ⟨?_, rfl⟩
      rintro ⟨mark, there, _⟩
      rw [here] at there
      cases there
  | some mark =>
      rw [Outcome.orPanic_some, Outcome.ok_bind, cachedBlock_eq holds]
      have only : ∀ mark', r.marks[idx]? = some mark' → mark' = mark := by
        intro mark' there
        rw [here] at there
        exact (Option.some.inj there).symm
      cases read : readBlock fmt lz4 r.bin mark.blockOffset with
      | panic => exact (decodes _ read).elim
      | err e =>
          refine .inr (.inl ⟨⟨mark, here, fun block there => ?_⟩, ?_, e, rfl⟩)
          · rw [read] at there
            cases there
          · rintro ⟨mark', there, block, reads⟩
            rw [only mark' there, read] at reads
            cases reads
      | ok block =>
          rw [Outcome.ok_bind]
          by_cases inside : mark.decompressedOffset ≤ granuleEnd r.marks idx mark block.length ∧
              granuleEnd r.marks idx mark block.length ≤ block.length
          · refine .inr (.inr ⟨⟨mark, here, fun block' there => ?_⟩, mark, block, rfl, read, ?_⟩)
            · rw [read] at there
              cases there
              exact inside
            · simp only [if_pos inside]
          · refine .inl ⟨?_, if_neg inside⟩
            rintro ⟨mark', there, slice⟩
            rw [only mark' there] at slice
            exact inside (slice block read)

theorem readBlock_ne_panic (decodes : ∀ codec bytes, fmt.decode codec bytes ≠ .panic)
    (tags : ∀ tag, fmt.fromTag tag ≠ .panic) (bin : Bytes) (offset : Nat) :
    readBlock fmt lz4 bin offset ≠ .panic := by
  refine Outcome.bind_ne_panic (readExact_ne_panic _ _ _) fun tag _ => ?_
  refine Outcome.bind_ne_panic (Outcome.mapErr_ne_panic (tags _)) fun codec _ => ?_
  refine Outcome.bind_ne_panic (readExact_ne_panic _ _ _) fun lenBuf _ => ?_
  refine Outcome.bind_ne_panic (readExact_ne_panic _ _ _) fun compressed _ => ?_
  refine Outcome.bind_ne_panic (Outcome.ofExcept_ne_panic _ _) fun decompressed _ => ?_
  exact Outcome.mapErr_ne_panic (decodes codec decompressed)

end Block

end TinyOlap.Storage

namespace TinyOlap.Execution

open Library Library.WorkPool Encoding Catalog Arrow Storage Physical

/-! ## Columns -/

/-- The contents of the two files of a column. -/
structure ColumnFiles where
  dataType : DataType
  bin : Bytes
  marks : List Mark

/-- The files of a column of a part, if both are there. -/
def columnFiles (partDir : PartDir) (col : ColumnSchema) : Option ColumnFiles := do
  let bin ← partDir (.bin col.name)
  let mrk ← partDir (.mrk col.name)
  some ⟨col.dataType, bin, readAllMarks mrk⟩

namespace ColumnFiles

variable (lz4 : Lz4)

/-- The text of a granule fits the offsets of a string array. -/
def TextFits (f : ColumnFiles) (idx : Nat) : Prop :=
  ∀ mark, f.marks[idx]? = some mark → ∀ block : List String,
    readBlock stringFormat lz4 f.bin mark.blockOffset = .ok block →
    (ArrayRef.mk (.data .str) ((block.drop mark.decompressedOffset).take
      (granuleEnd f.marks idx mark block.length - mark.decompressedOffset))).textBytes < 2 ^ 31

/-- **Nothing is out of range**: the granule has a mark, and is a slice of the block of the mark,
if this can be read. -/
def InRange (f : ColumnFiles) (idx : Nat) : Prop :=
  match f.dataType with
  | .fixed t => SliceInside (columnFormat t.Native) lz4 f.bin f.marks idx
  | .str => SliceInside stringFormat lz4 f.bin f.marks idx ∧ f.TextFits lz4 idx

/-- The block of the granule can be read. -/
def Reads (f : ColumnFiles) (idx : Nat) : Prop :=
  match f.dataType with
  | .fixed t => BlockReads (columnFormat t.Native) lz4 f.bin f.marks idx
  | .str => BlockReads stringFormat lz4 f.bin f.marks idx

end ColumnFiles

/-- The reader of a column is open on these files. -/
inductive ReaderOf (lz4 : Lz4) : ColumnFiles → ColumnReaderKind → Prop where
  | numeric (t : FixedType) (r : ColumnReader) (holds : CacheHolds (columnFormat t.Native) lz4 r) :
      ReaderOf lz4 ⟨.fixed t, r.bin, r.marks⟩ (.numeric r)
  | str (r : StringColumnReader) (holds : CacheHolds stringFormat lz4 r) :
      ReaderOf lz4 ⟨.str, r.bin, r.marks⟩ (.str r)

section Columns

variable {lz4 : Lz4} {f : ColumnFiles} {reader : ColumnReaderKind} {col : ColumnSchema}

theorem ReaderOf.granuleCount (isOf : ReaderOf lz4 f reader) :
    reader.granuleCount = f.marks.length := by
  cases isOf with
  | numeric t r holds => rfl
  | str r holds => rfl

theorem numeric_ne_panic (t : FixedType) (bin : Bytes) (offset : Nat) :
    readBlock (columnFormat t.Native) lz4 bin offset ≠ .panic := by
  refine readBlock_ne_panic (fun codec bytes => ?_) (fun tag => ?_) bin offset
  · exact codec.decode_ne_panic Primitive.width_supported _ _
  · show Codec.fromTag tag ≠ .panic
    unfold Codec.fromTag
    split <;> [skip; split <;> [skip; split]] <;> simp

theorem str_ne_panic (bin : Bytes) (offset : Nat) :
    readBlock stringFormat lz4 bin offset ≠ .panic := by
  refine readBlock_ne_panic (fun codec bytes => ?_) (fun tag => ?_) bin offset
  · exact codec.decode_ne_panic _ _
  · show StringCodec.fromTag tag ≠ .panic
    unfold StringCodec.fromTag
    split <;> [skip; split] <;> simp

/-- **Reading a granule of a column**, whatever is in its files. -/
theorem ReaderOf.readGranule_cases (isOf : ReaderOf lz4 f reader)
    (type : col.dataType = f.dataType) (idx : Nat) :
    (¬ f.InRange lz4 idx ∧ reader.readGranule lz4 col idx = .panic) ∨
    (f.InRange lz4 idx ∧ ¬ f.Reads lz4 idx ∧ ∃ e, reader.readGranule lz4 col idx = .err e) ∨
    (f.InRange lz4 idx ∧ f.Reads lz4 idx ∧ ∃ array reader',
      reader.readGranule lz4 col idx = .ok (array, reader') ∧ ReaderOf lz4 f reader') := by
  obtain ⟨name, dataType⟩ := col
  cases isOf with
  | numeric t r holds =>
      cases type
      rcases Storage.readGranule_cases holds idx (numeric_ne_panic t r.bin) with
        ⟨outside, read⟩ | ⟨inside, fails, e, read⟩ | ⟨inside, mark, block, here, reads, read⟩
      · refine .inl ⟨outside, ?_⟩
        simp only [ColumnReaderKind.readGranule, ColumnReader.readGranule, read]
        rfl
      · refine .inr (.inl ⟨inside, fails, e, ?_⟩)
        simp only [ColumnReaderKind.readGranule, ColumnReader.readGranule, read]
        rfl
      · obtain ⟨array, ran⟩ : ∃ array, ColumnReaderKind.readGranule lz4 ⟨name, .fixed t⟩
            (.numeric r) idx =
              .ok (array, .numeric { r with cache := some (mark.blockOffset, block) }) := by
          simp only [ColumnReaderKind.readGranule, ColumnReader.readGranule, read]
          exact ⟨_, rfl⟩
        refine .inr (.inr ⟨inside, ⟨mark, here, block, reads⟩, array, _, ran,
          .numeric t { r with cache := some (mark.blockOffset, block) }
            fun off block' cached => ?_⟩)
        cases cached
        exact reads
  | str r holds =>
      cases type
      rcases Storage.readGranule_cases holds idx (str_ne_panic r.bin) with
        ⟨outside, read⟩ | ⟨inside, fails, e, read⟩ | ⟨inside, mark, block, here, reads, read⟩
      · refine .inl ⟨fun within => outside within.1, ?_⟩
        simp only [ColumnReaderKind.readGranule, StringColumnReader.readGranule, read]
        rfl
      · refine .inr (.inl ⟨⟨inside, fun mark here block reads => ?_⟩, fails, e, ?_⟩)
        · exact (fails ⟨mark, here, block, reads⟩).elim
        · simp only [ColumnReaderKind.readGranule, StringColumnReader.readGranule, read]
          rfl
      · by_cases fits : (ArrayRef.mk (.data .str) ((block.drop mark.decompressedOffset).take
            (granuleEnd r.marks idx mark block.length - mark.decompressedOffset))).textBytes
              < 2 ^ 31
        · obtain ⟨array, ran⟩ : ∃ array, ColumnReaderKind.readGranule lz4 ⟨name, .str⟩
              (.str r) idx =
                .ok (array, .str { r with cache := some (mark.blockOffset, block) }) := by
            simp only [ColumnReaderKind.readGranule, StringColumnReader.readGranule, read,
              Outcome.ok_bind]
            exact ⟨_, if_pos fits⟩
          refine .inr (.inr ⟨⟨inside, fun mark' here' block' reads' => ?_⟩,
            ⟨mark, here, block, reads⟩, array, _, ran,
            .str { r with cache := some (mark.blockOffset, block) } fun off block' cached => ?_⟩)
          · cases here.symm.trans here'
            cases reads.symm.trans reads'
            exact fits
          · cases cached
            exact reads
        · refine .inl ⟨fun within => fits (within.2 mark here block reads), ?_⟩
          simp only [ColumnReaderKind.readGranule, StringColumnReader.readGranule, read,
            Outcome.ok_bind]
          exact if_neg fits

end Columns

/-! ## Granules of a part -/

section Granules

variable (lz4 : Lz4)

/-- **A granule is read without a panic**: nothing is out of range, up to the first column whose
block cannot be read. -/
def Guarded (idx : Nat) : List ColumnFiles → Prop
  | [] => True
  | f :: rest => f.InRange lz4 idx ∧ (f.Reads lz4 idx → Guarded idx rest)

/-- All columns of the granule are read. -/
def AllRead (idx : Nat) (files : List ColumnFiles) : Prop :=
  ∀ f ∈ files, f.InRange lz4 idx ∧ f.Reads lz4 idx

/-- The readers are open on the files of their columns. -/
abbrev Opens (files : List ColumnFiles) (cols : List (ColumnSchema × ColumnReaderKind)) : Prop :=
  List.Forall₂ (fun f c => ReaderOf lz4 f c.2 ∧ c.1.dataType = f.dataType) files cols

variable {lz4} {files : List ColumnFiles} {cols : List (ColumnSchema × ColumnReaderKind)}

theorem AllRead.guarded {idx : Nat} (all : AllRead lz4 idx files) : Guarded lz4 idx files := by
  induction files with
  | nil => trivial
  | cons f rest ih =>
      exact ⟨(all f (by simp)).1, fun _ => ih fun g member => all g (by simp [member])⟩

/-- **Reading a granule of all columns**, whatever is in their files. -/
theorem readColumns_cases (opens : Opens lz4 files cols) (idx : Nat) :
    (¬ Guarded lz4 idx files ∧ (readColumns lz4 idx cols).1 = .panic) ∨
    ∃ readers, readers.length = cols.length ∧ Opens lz4 files ((cols.map Prod.fst).zip readers) ∧
      ((AllRead lz4 idx files ∧ ∃ arrays, readColumns lz4 idx cols = (.ok arrays, readers)) ∨
        (Guarded lz4 idx files ∧ ¬ AllRead lz4 idx files ∧
          ∃ e, readColumns lz4 idx cols = (.err e, readers))) := by
  induction opens with
  | nil => exact .inr ⟨[], rfl, .nil, .inl ⟨by simp [AllRead], [], rfl⟩⟩
  | @cons f c files cols here rest ih =>
      obtain ⟨col, reader⟩ := c
      obtain ⟨isOf, type⟩ := here
      rcases isOf.readGranule_cases type idx with
        ⟨outside, read⟩ | ⟨inside, fails, e, read⟩ | ⟨inside, reads, array, reader', read, isOf'⟩
      · exact .inl ⟨fun guarded => outside guarded.1, by rw [readColumns, read]⟩
      · have same : (cols.map Prod.fst).zip (cols.map Prod.snd) = cols := by
          rw [List.zip_map']
          exact List.map_id _
        refine .inr ⟨reader :: cols.map Prod.snd, by simp, ?_, .inr ⟨⟨inside, ?_⟩, ?_, e, ?_⟩⟩
        · rw [List.map_cons, List.zip_cons_cons, same]
          exact .cons ⟨isOf, type⟩ rest
        · exact fun reads => (fails reads).elim
        · exact fun all => fails (all f (by simp)).2
        · rw [readColumns, read]
      · rcases ih with ⟨unguarded, panics⟩ | ⟨readers, length, opens, outcome⟩
        · refine .inl ⟨fun guarded => unguarded (guarded.2 reads), ?_⟩
          simp only [readColumns, read, panics]
          rfl
        · refine .inr ⟨reader' :: readers, by simp [length], .cons ⟨isOf', type⟩ opens, ?_⟩
          rcases outcome with ⟨all, arrays, later⟩ | ⟨guarded, some, e, later⟩
          · refine .inl ⟨List.forall_mem_cons.mpr ⟨⟨inside, reads⟩, all⟩, array :: arrays, ?_⟩
            simp only [readColumns, read, later]
            rfl
          · refine .inr ⟨⟨inside, fun _ => guarded⟩, fun all => some fun g member =>
              all g (by simp [member]), e, ?_⟩
            simp only [readColumns, read, later]
            rfl

/-- Opening the reader of a column: an error if one of its files is missing. -/
theorem openColumn_cases (lz4 : Lz4) (partDir : PartDir) (col : ColumnSchema) :
    (columnFiles partDir col = none ∧ ∃ e, ColumnReaderKind.open partDir col = .err e) ∨
    ∃ f reader, columnFiles partDir col = some f ∧
      ColumnReaderKind.open partDir col = .ok reader ∧ ReaderOf lz4 f reader ∧
      col.dataType = f.dataType := by
  obtain ⟨name, dataType⟩ := col
  have opened : ∀ γ : Type, BlockReader.open γ partDir name =
      ((.ofOption notFound (partDir (.bin name))) >>= fun bin =>
        (.ofOption notFound (partDir (.mrk name))) >>= fun mrk =>
          .ok ⟨bin, readAllMarks mrk, none⟩) := fun _ => rfl
  cases bin : partDir (.bin name) with
  | none =>
      refine .inl ⟨by simp [columnFiles, bin], notFound, ?_⟩
      cases dataType <;> simp only [ColumnReaderKind.open, StringColumnReader.open,
        ColumnReader.open, opened, bin] <;> rfl
  | some bin' =>
      cases mrk : partDir (.mrk name) with
      | none =>
          refine .inl ⟨by simp [columnFiles, bin, mrk],
            notFound, ?_⟩
          cases dataType <;> simp only [ColumnReaderKind.open, StringColumnReader.open,
            ColumnReader.open, opened, bin, mrk] <;> rfl
      | some mrk' =>
          refine .inr ⟨⟨dataType, bin', readAllMarks mrk'⟩, ?_⟩
          cases dataType with
          | fixed t =>
              refine ⟨_, by simp [columnFiles, bin, mrk], ?_, .numeric t
                ⟨bin', readAllMarks mrk', none⟩ (by simp [CacheHolds]), rfl⟩
              simp only [ColumnReaderKind.open, ColumnReader.open, opened, bin, mrk]
              rfl
          | str =>
              refine ⟨_, by simp [columnFiles, bin, mrk], ?_, .str
                ⟨bin', readAllMarks mrk', none⟩ (by simp [CacheHolds]), rfl⟩
              simp only [ColumnReaderKind.open, StringColumnReader.open, opened, bin, mrk]
              rfl

/-- **Opening the readers of a part**: an error if a file is missing. -/
theorem openColumns_cases (lz4 : Lz4) (partDir : PartDir) (columns : List ColumnSchema) :
    (columns.mapM (columnFiles partDir) = none ∧
      ∃ e, columns.mapM (ColumnReaderKind.open partDir) = .err e) ∨
    ∃ files readers, columns.mapM (columnFiles partDir) = some files ∧
      columns.mapM (ColumnReaderKind.open partDir) = .ok readers ∧
      readers.length = columns.length ∧ Opens lz4 files (columns.zip readers) := by
  induction columns with
  | nil => exact .inr ⟨[], [], rfl, rfl, rfl, .nil⟩
  | cons col columns ih =>
      rw [List.mapM_cons, List.mapM_cons]
      rcases openColumn_cases lz4 partDir col with
        ⟨missing, e, failed⟩ | ⟨f, reader, found, opened, isOf, type⟩
      · exact .inl ⟨by rw [missing]; rfl, e, by rw [failed]; rfl⟩
      · rw [found, opened]
        rcases ih with ⟨missing, e, failed⟩ | ⟨files, readers, found', opened', length, opens⟩
        · exact .inl ⟨by rw [missing]; rfl, e, by rw [failed]; rfl⟩
        · exact .inr ⟨f :: files, reader :: readers, by rw [found']; rfl, by rw [opened']; rfl,
            by simp [length], .cons ⟨isOf, type⟩ opens⟩

end Granules

/-! ## A scan of a part -/

/-- How many granules are asked for: as many as the first column has marks, but at least one. -/
def granulesAsked (files : List ColumnFiles) : Nat :=
  max 1 ((files.head?.map fun f => f.marks.length).getD 0)

/-- **A part is read without a panic**: at least one column is asked for, and if all their files
are there, every granule that the scan comes to is guarded. It comes to a granule when all
before it have been read. -/
def PartGuarded (lz4 : Lz4) (columns : List ColumnSchema) (partDir : PartDir) : Prop :=
  columns ≠ [] ∧ ∀ files, columns.mapM (columnFiles partDir) = some files →
    ∀ idx < granulesAsked files, (∀ j < idx, AllRead lz4 j files) → Guarded lz4 idx files

namespace FullScanExec

/-- The scan is about to read a granule. -/
structure ReadsAt (lz4 : Lz4) (files : List ColumnFiles) (idx : Nat) (s : FullScanExec) : Prop where
  some : files ≠ []
  at_ : s.granuleIdx = idx
  count : max 1 s.granuleCount = granulesAsked files
  opens : Opens lz4 files (s.columns.zip s.readers)
  readers : s.readers.length = s.columns.length

variable {lz4 : Lz4} {skip : PartDir → Bool} {files : List ColumnFiles} {idx : Nat}
  {s : FullScanExec}

/-- The arrays that were read make a batch or an error. -/
theorem returning_tryNew (fields : List Field) (arrays : List ArrayRef) (t : FullScanExec) :
    ∃ item, Turn.returning t ((RecordBatch.tryNew fields arrays).mapErr .arrow) = .ret item t := by
  have never : RecordBatch.tryNew fields arrays ≠ .panic := by
    cases arrays with
    | nil => simp [RecordBatch.tryNew]
    | cons a rest =>
        rw [RecordBatch.tryNew, RecordBatch.tryNewWithRows]
        split <;> [skip; split <;> [split; skip]] <;> simp
  cases made : RecordBatch.tryNew fields arrays with
  | ok b => exact ⟨_, rfl⟩
  | err e => exact ⟨_, rfl⟩
  | panic => exact (never made).elim

/-- **The turns of a scan that reads a granule.** -/
theorem ReadsAt.cases (reads : s.ReadsAt lz4 files idx) (inside : idx < granulesAsked files) :
    (¬ Guarded lz4 idx files ∧ s.readNext lz4 = .panic) ∨
    (Guarded lz4 idx files ∧ ¬ AllRead lz4 idx files ∧ ∃ item s',
      s.readNext lz4 = .ret item s' ∧ s'.ReadsAt lz4 files idx) ∨
    (AllRead lz4 idx files ∧ ∃ item s', s.readNext lz4 = .ret item s' ∧
      ((idx + 1 = granulesAsked files ∧ s'.readers = []) ∨
        (idx + 1 < granulesAsked files ∧ s'.ReadsAt lz4 files (idx + 1)))) := by
  obtain ⟨some, rfl, count, opens, readers⟩ := reads
  have firsts : (s.columns.zip s.readers).map Prod.fst = s.columns :=
    List.map_fst_zip (Nat.le_of_eq readers.symm)
  have lengths : (s.columns.zip s.readers).length = s.columns.length := by
    rw [List.length_zip, readers, Nat.min_self]
  unfold readNext
  rcases readColumns_cases opens s.granuleIdx with
    ⟨unguarded, panics⟩ | ⟨readers', length, opens', outcome⟩
  · refine .inl ⟨unguarded, ?_⟩
    cases read : readColumns lz4 s.granuleIdx (s.columns.zip s.readers) with
    | mk result readers' =>
        rw [read] at panics
        cases panics
        rfl
  · rw [firsts] at opens'
    rw [lengths] at length
    rcases outcome with ⟨all, arrays, read⟩ | ⟨guarded, notAll, e, read⟩
    · refine .inr (.inr ⟨all, ?_⟩)
      rw [read]
      obtain ⟨item, returned⟩ := returning_tryNew s.schema arrays { s with
        granuleIdx := s.granuleIdx + 1
        readers := if s.granuleCount ≤ s.granuleIdx + 1 then [] else readers' }
      refine ⟨item, _, returned, ?_⟩
      by_cases last : s.granuleCount ≤ s.granuleIdx + 1
      · refine .inl ⟨?_, if_pos last⟩
        omega
      · refine .inr ⟨by omega, some, rfl, count, ?_, ?_⟩
        · simpa only [if_neg last] using opens'
        · simpa only [if_neg last] using length
    · rw [read]
      exact .inr (.inl ⟨guarded, notAll, _, _, rfl, some, rfl, count, opens', length⟩)

/-- A scan with open readers takes a turn of its own. -/
theorem ReadsAt.act (reads : s.ReadsAt lz4 files idx) :
    s.actSkipping lz4 skip = .turn (s.readNext lz4) := by
  have nonempty : ¬ s.readers.isEmpty = true := by
    intro empty
    have opens := reads.opens
    rw [List.isEmpty_iff.mp empty, List.zip_nil_right] at opens
    exact reads.some (List.forall₂_nil_right_iff.mp opens)
  rw [actSkipping, if_neg nonempty]

/-- When there are no more parts, every call returns. -/
theorem callsReturn_closed (closed : s.readers = []) :
    CallsReturn (fun s : FullScanExec => s.actSkipping lz4 skip) s [] := by
  refine .of_invariant (I := fun s works => s.readers = [] ∧ works = []) ⟨closed, rfl⟩ ?_
  rintro s works ⟨closed, rfl⟩
  obtain ⟨k, acts, answer⟩ : ∃ k, s.actSkipping lz4 skip = .nextWork k ∧ k none = .ret none s := by
    rw [actSkipping, closed]
    exact ⟨_, rfl, rfl⟩
  exact ⟨none, s, [], .of_nextWork acts answer, closed, rfl⟩

/-- A scan that has met an error stays where it is. -/
theorem callsReturn_stuck (reads : s.ReadsAt lz4 files idx) (inside : idx < granulesAsked files)
    (guarded : Guarded lz4 idx files) (notAll : ¬ AllRead lz4 idx files) :
    CallsReturn (fun s : FullScanExec => s.actSkipping lz4 skip) s [] := by
  refine .of_invariant (I := fun s works => s.ReadsAt lz4 files idx ∧ works = []) ⟨reads, rfl⟩ ?_
  rintro s works ⟨reads, rfl⟩
  rcases reads.cases inside with
    ⟨unguarded, _⟩ | ⟨_, _, item, s', turn, reads'⟩ | ⟨all, _⟩
  · exact (unguarded guarded).elim
  · exact ⟨item, s', [], .of_turn (reads.act.trans (congrArg Act.turn turn)) [], reads', rfl⟩
  · exact (notAll all).elim

/-- **The calls of a scan from a granule on** return if and only if every granule that it comes
to is guarded. -/
theorem ReadsAt.callsReturn_iff (reads : s.ReadsAt lz4 files idx)
    (inside : idx < granulesAsked files) :
    CallsReturn (fun s : FullScanExec => s.actSkipping lz4 skip) s [] ↔
      ∀ later < granulesAsked files, idx ≤ later →
        (∀ j, idx ≤ j → j < later → AllRead lz4 j files) → Guarded lz4 later files := by
  induction left : granulesAsked files - idx generalizing idx s with
  | zero => omega
  | succ left ih =>
      rcases reads.cases inside with
        ⟨unguarded, turn⟩ | ⟨guarded, notAll, _⟩ | ⟨all, item, s', turn, next⟩
      · refine iff_of_false (not_callsReturn_of_panic ?_) fun each => unguarded ?_
        · rw [reads.act]
          exact turn
        · exact each idx inside (Nat.le_refl idx) fun j above below => by omega
      · refine iff_of_true (callsReturn_stuck reads inside guarded notAll) ?_
        intro later _ above before
        rcases Nat.eq_or_lt_of_le above with rfl | beyond
        · exact guarded
        · exact (notAll (before idx (Nat.le_refl idx) beyond)).elim
      · have returns : Returns (fun s : FullScanExec => s.actSkipping lz4 skip) s [] item s' [] :=
          .of_turn (reads.act.trans (congrArg Act.turn turn)) []
        rw [callsReturn_iff returns]
        rcases next with ⟨last, closed⟩ | ⟨more, reads'⟩
        · refine iff_of_true (callsReturn_closed closed) fun later below above before => ?_
          obtain rfl : later = idx := by omega
          exact all.guarded
        · rw [ih reads' more (by omega)]
          constructor
          · intro each later below above before
            rcases Nat.eq_or_lt_of_le above with rfl | beyond
            · exact all.guarded
            · exact each later below beyond fun j starts ends => before j (by omega) ends
          · intro each later below above before
            refine each later below (by omega) fun j starts ends => ?_
            rcases Nat.eq_or_lt_of_le starts with rfl | beyond
            · exact all
            · exact before j beyond ends

/-- **The calls of a scan of a part**, with a test that leaves out parts. -/
theorem callsReturn_part_iff (lz4 : Lz4) (skip : PartDir → Bool) (columns : List ColumnSchema)
    (schema : List Field) (partDir : PartDir) :
    CallsReturn (fun s : FullScanExec => s.actSkipping lz4 skip) (.new columns schema) [partDir] ↔
      skip partDir = true ∨ PartGuarded lz4 columns partDir := by
  let s : FullScanExec := .new columns schema
  have answer : (s.actSkipping lz4 skip).answer [partDir].head? =
      if skip partDir then .again s else s.openPart partDir := rfl
  have left : (s.actSkipping lz4 skip).left [partDir] = [] := rfl
  by_cases skips : skip partDir = true
  · rw [if_pos skips] at answer
    rw [callsReturn_again_iff answer, left]
    exact iff_of_true (callsReturn_closed rfl) (.inl skips)
  rw [if_neg skips] at answer
  rw [or_iff_right skips]
  rcases openColumns_cases lz4 partDir columns with
    ⟨missing, e, failed⟩ | ⟨files, readers, found, opened, length, opens⟩
  · have returned : s.openPart partDir = .ret (some (.error (.io e))) s := by
      simp only [openPart, s, new, failed]
    rw [callsReturn_iff (.now (answer.trans returned)), left]
    refine iff_of_true (callsReturn_closed rfl) ⟨?_, fun files found => ?_⟩
    · rintro rfl
      cases missing
    · rw [missing] at found
      cases found
  · cases readers with
    | nil =>
        have none : columns = [] := List.length_eq_zero_iff.mp length.symm
        have panics : s.openPart partDir = .panic := by simp only [openPart, s, new, opened]
        refine iff_of_false (not_callsReturn_of_panic (answer.trans panics)) ?_
        exact fun guarded => guarded.1 none
    | cons r rest =>
        have nonempty : columns ≠ [] := by
          rintro rfl
          cases length
        have begun : s.openPart partDir = .again { s with
            readers := r :: rest
            granuleCount := r.granuleCount
            granuleIdx := 0 } := by
          simp only [openPart, s, new, opened]
        obtain ⟨c, cols, rfl⟩ := List.exists_cons_of_ne_nil nonempty
        rw [callsReturn_again_iff (answer.trans begun), left]
        rw [List.zip_cons_cons] at opens
        obtain ⟨f, others, first, later, rfl⟩ := List.forall₂_cons_right_iff.mp opens
        have reads : ReadsAt lz4 (f :: others) 0 { s with
            readers := r :: rest
            granuleCount := r.granuleCount
            granuleIdx := 0 } := by
          refine ⟨by simp, rfl, ?_, opens, length⟩
          simp only [first.1.granuleCount]
          rfl
        rw [reads.callsReturn_iff (Nat.lt_of_lt_of_le Nat.zero_lt_one (Nat.le_max_left 1 _))]
        constructor
        · refine fun each => ⟨nonempty, fun files found' idx below before => ?_⟩
          cases found.symm.trans found'
          exact each idx below (Nat.zero_le idx) fun j _ before' => before j before'
        · exact fun guarded idx below _ before =>
            guarded.2 _ found idx below fun j before' => before j (Nat.zero_le j) before'

end FullScanExec

/-- **When reading a damaged part never panics.** Whatever is in the files of a part: all calls
of a full scan of it return if and only if every granule that the scan comes to is guarded,
and all calls of a zone map scan if and only if this is so or the part is left out. -/
theorem scans_return_iff (lz4 : Lz4) (columns : List ColumnSchema) (schema : List Field)
    (partDir : PartDir) :
    (CallsReturn (FullScanExec.act lz4) (.new columns schema) [partDir] ↔
      PartGuarded lz4 columns partDir) ∧
    ∀ skipPredicate : PhysicalExpr,
      CallsReturn (ZoneMapScanExec.act lz4) (.new columns schema skipPredicate) [partDir] ↔
        zoneMapCanSkip (loadZoneMap partDir) skipPredicate = true ∨
          PartGuarded lz4 columns partDir := by
  refine ⟨?_, fun skipPredicate => ?_⟩
  · have scan := FullScanExec.callsReturn_part_iff lz4 (fun _ => false) columns schema partDir
    rwa [or_iff_right (by simp)] at scan
  · rw [← FullScanExec.callsReturn_part_iff lz4
      (fun partDir => zoneMapCanSkip (loadZoneMap partDir) skipPredicate) columns schema partDir]
    have acts : ∀ s : FullScanExec, ZoneMapScanExec.act lz4 ⟨s, skipPredicate⟩ =
        (s.actSkipping lz4 fun partDir =>
          zoneMapCanSkip (loadZoneMap partDir) skipPredicate).map
            (Turn.map fun scan => ⟨scan, skipPredicate⟩) := fun s => rfl
    exact callsReturn_rename acts

/-- A mark that points behind its block: after the only byte of it. -/
def damagedFlag : PartDir :=
  (PartDir.empty.set (.bin "a") (frame 0 (Lz4.literals.compressPrependSize [1]))).set (.mrk "a")
    (markBytes [⟨0, 2⟩])

/-- **A scan panics** at such a mark, and at a mark file that is cut off. -/
theorem scan_panics :
    ¬ CallsReturn (FullScanExec.act Lz4.literals)
      (.new [⟨"a", .bool⟩] [⟨"a", .data .bool⟩]) [damagedFlag] ∧
    ¬ CallsReturn (FullScanExec.act Lz4.literals)
      (.new [⟨"a", .bool⟩] [⟨"a", .data .bool⟩])
        [damagedFlag.set (.mrk "a") (List.replicate 23 0)] := by
  constructor
  · rw [callsReturn_again_iff rfl]
    exact not_callsReturn_of_panic rfl
  · rw [callsReturn_again_iff rfl]
    exact not_callsReturn_of_panic rfl

end TinyOlap.Execution
