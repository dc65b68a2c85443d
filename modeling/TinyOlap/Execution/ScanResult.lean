import TinyOlap.Execution.Scan

/-!
# What a scan returns

Let a part hold a batch, that is, let its files store the columns the scan asks for.
Whatever blocks the readers have cached, granule `i` of every column covers the same
rows, so that the scan returns the batch cut into granules (`granules`), one after the
other. This is said of a worker in a pool: on the parts it is handed it delivers their
granules, and it finishes when it has been told that there are no more parts.
-/

set_option autoImplicit false

namespace TinyOlap.Execution

open Library Library.WorkPool Library.BlockLayout Encoding Catalog Arrow Storage Physical

/-! ## Open readers -/

/-- A reader that is open on the files of an array. -/
inductive ReaderOn (lz4 : Lz4) : ColumnReaderKind → ArrayRef → Prop
  | numeric (t : FixedType) (codec : Codec) (enc : List t.Native → Bytes)
      (values : List t.Native) (r : ColumnReader)
      (isOpen : OpenOn (columnFormat t.Native) codec lz4 enc
        (blocksOf (columnFormat t.Native) values) r)
      (readable : ∀ b ∈ blocksOf (columnFormat t.Native) values,
        Readable (columnFormat t.Native) codec lz4 enc b) :
      ReaderOn lz4 (.numeric r) ⟨.data (.fixed t), values⟩
  | str (codec : StringCodec) (values : List String) (r : StringColumnReader)
      (isOpen : OpenOn stringFormat codec lz4 (fun b => codec.encode b [])
        (blocksOf stringFormat values) r)
      (readable : ∀ b ∈ blocksOf stringFormat values,
        Readable stringFormat codec lz4 (fun b => codec.encode b []) b) :
      ReaderOn lz4 (.str r) ⟨.data .str, values⟩

/-- A stored column opens, and has a granule for every 512 values begun. -/
theorem exists_readerOn {lz4 : Lz4} {partDir : PartDir} {col : ColumnSchema} {array : ArrayRef}
    (stored : StoredColumn lz4 partDir col.name array) (type : array.type = toArrow col.dataType) :
    ∃ reader, ColumnReaderKind.open partDir col = .ok reader ∧ ReaderOn lz4 reader array ∧
      reader.granuleCount = BlockLayout.granuleCount granuleSize array.length := by
  obtain ⟨name, dataType⟩ := col
  cases stored with
  | fixed t codec enc values stored =>
      cases type
      obtain ⟨r, opened, isOpen, count⟩ := stored.open
      refine ⟨.numeric r, ?_, .numeric t codec enc values r isOpen stored.readable, count⟩
      exact (congrArg (· >>= fun r => Outcome.ok (ColumnReaderKind.numeric r)) opened)
  | str codec values stored =>
      cases type
      obtain ⟨r, opened, isOpen, count⟩ := stored.open
      refine ⟨.str r, ?_, .str codec values r isOpen stored.readable, count⟩
      exact (congrArg (· >>= fun r => Outcome.ok (ColumnReaderKind.str r)) opened)

theorem textBytes_slice_le (a : ArrayRef) (offset length : Nat) :
    (a.slice offset length).textBytes ≤ a.textBytes := by
  obtain ⟨type, values⟩ := a
  by_cases text : type = .data .str
  · subst text
    simp only [ArrayRef.textBytes, ArrayRef.slice, ArrayRef.downcast_mk]
    exact (((List.take_sublist _ _).trans (List.drop_sublist _ _)).map _).sum_le_sum
      fun _ _ => Nat.zero_le _
  · simp [ArrayRef.textBytes, ArrayRef.slice, ArrayRef.downcast, text]

/-- An open reader returns the granule it is asked for, and stays open. -/
theorem ReaderOn.readGranule {lz4 : Lz4} {reader : ColumnReaderKind} {array : ArrayRef}
    (isOn : ReaderOn lz4 reader array) {col : ColumnSchema}
    (type : array.type = toArrow col.dataType) (offsets : array.textBytes < 2 ^ 31) {idx : Nat}
    (inRange : idx < BlockLayout.granuleCount granuleSize array.length) :
    ∃ reader', reader.readGranule lz4 col idx =
        .ok (array.slice (granuleSize * idx) granuleSize, reader') ∧
        ReaderOn lz4 reader' array := by
  obtain ⟨name, dataType⟩ := col
  cases isOn with
  | numeric t codec enc values r isOpen readable =>
      cases type
      obtain ⟨r', read, isOpen'⟩ := isOpen.readGranule readable inRange
      refine ⟨.numeric r', ?_, .numeric t codec enc values r' isOpen' readable⟩
      simp only [ColumnReaderKind.readGranule, ColumnReader.readGranule, read, Outcome.ok_bind]
      rfl
  | str codec values r isOpen readable =>
      cases type
      obtain ⟨r', read, isOpen'⟩ := isOpen.readGranule readable inRange
      refine ⟨.str r', ?_, .str codec values r' isOpen' readable⟩
      have short := Nat.lt_of_le_of_lt
        (textBytes_slice_le ⟨.data .str, values⟩ (granuleSize * idx) granuleSize) offsets
      simp only [ColumnReaderKind.readGranule, StringColumnReader.readGranule, read,
        Outcome.ok_bind]
      exact if_pos short

/-! ## Parts and their granules -/

/-- A part whose files store the columns of a batch. -/
structure PartHolds (lz4 : Lz4) (columns : List ColumnSchema) (partDir : PartDir)
    (whole : RecordBatch) : Prop where
  fields : whole.fields = columns.map Field.ofColumn
  stored : List.Forall₂ (fun c a => StoredColumn lz4 partDir c.name a) columns whole.columns
  offsets : ∀ a ∈ whole.columns, a.textBytes < 2 ^ 31

/-- A batch cut into granules. -/
def granules (whole : RecordBatch) : List RecordBatch :=
  (List.range (BlockLayout.granuleCount granuleSize whole.numRows)).map fun i =>
    whole.slice (granuleSize * i) granuleSize

theorem granules_length (whole : RecordBatch) :
    (granules whole).length = BlockLayout.granuleCount granuleSize whole.numRows := by
  simp [granules]

/-- Read a part granule by granule, each with fresh readers. -/
def readPart (lz4 : Lz4) (columns : List ColumnSchema) (partDir : PartDir) : List BatchResult :=
  match columns.mapM (ColumnReaderKind.open partDir) with
  | .ok (r :: rest) =>
      (List.range r.granuleCount).filterMap fun idx =>
        match (readColumns lz4 idx (columns.zip (r :: rest))).1 with
        | .ok arrays =>
            match RecordBatch.tryNew (columns.map Field.ofColumn) arrays with
            | .ok b => some (.ok b)
            | _ => none
        | _ => none
  | _ => []

section Holds

variable {lz4 : Lz4} {columns : List ColumnSchema} {partDir : PartDir} {whole : RecordBatch}

theorem PartHolds.types (holds : PartHolds lz4 columns partDir whole) :
    List.Forall₂ (fun c a => a.type = toArrow c.dataType) columns whole.columns := by
  have typed := whole.typed
  rw [holds.fields, List.map_map] at typed
  exact (List.forall₂_map_left_iff (f := fun c : ColumnSchema => toArrow c.dataType)
    (R := fun t (a : ArrayRef) => a.type = t)).mp
      ((List.forall₂_map_right_iff (f := ArrayRef.type) (R := fun t t' => t' = t)).mp
        (typed ▸ List.forall₂_same.mpr fun _ _ => rfl))

/-- All columns of a part open. -/
theorem open_columns {arrays : List ArrayRef}
    (stored : List.Forall₂ (fun c a => StoredColumn lz4 partDir c.name a) columns arrays)
    (types : List.Forall₂ (fun c a => a.type = toArrow c.dataType) columns arrays) :
    ∃ readers, columns.mapM (ColumnReaderKind.open partDir) = .ok readers ∧
      List.Forall₂ (fun r a => ReaderOn lz4 r a ∧
        r.granuleCount = BlockLayout.granuleCount granuleSize a.length) readers arrays := by
  induction stored with
  | nil => exact ⟨[], rfl, .nil⟩
  | cons here _ ih =>
      cases types with
      | cons type types =>
          obtain ⟨reader, opened, isOn⟩ := exists_readerOn here type
          obtain ⟨readers, openedRest, areOn⟩ := ih types
          refine ⟨reader :: readers, ?_, .cons isOn areOn⟩
          rw [List.mapM_cons, opened, Outcome.ok_bind, openedRest]
          rfl

/-- Open readers return the same granule of every column, and stay open. -/
theorem readColumns_eq {arrays : List ArrayRef} {readers : List ColumnReaderKind} {n idx : Nat}
    (types : List.Forall₂ (fun c a => a.type = toArrow c.dataType) columns arrays)
    (areOn : List.Forall₂ (ReaderOn lz4) readers arrays) (lengths : ∀ a ∈ arrays, a.length = n)
    (offsets : ∀ a ∈ arrays, a.textBytes < 2 ^ 31)
    (inRange : idx < BlockLayout.granuleCount granuleSize n) :
    ∃ readers', readColumns lz4 idx (columns.zip readers) =
        (.ok (arrays.map (ArrayRef.slice (granuleSize * idx) granuleSize)), readers') ∧
      List.Forall₂ (ReaderOn lz4) readers' arrays := by
  induction types generalizing readers with
  | nil =>
      cases areOn
      exact ⟨[], rfl, .nil⟩
  | @cons c a columns arrays type types ih =>
      cases areOn with
      | cons isOn areOn =>
          obtain ⟨reader', read, isOn'⟩ := isOn.readGranule type (offsets a (by simp))
            ((lengths a (by simp)).symm ▸ inRange)
          obtain ⟨readers', reads, areOn'⟩ := ih areOn
            (fun a member => lengths a (by simp [member]))
            fun a member => offsets a (by simp [member])
          refine ⟨reader' :: readers', ?_, .cons isOn' areOn'⟩
          rw [List.zip_cons_cons, readColumns, read]
          simp only [reads, Outcome.map_ok, List.map_cons]

/-- **Arrays of one granule always make a batch**: they cover the same rows. -/
theorem tryNew_granule (holds : PartHolds lz4 columns partDir whole) (nonempty : columns ≠ [])
    (idx : Nat) :
    RecordBatch.tryNew (columns.map Field.ofColumn)
        (whole.columns.map (ArrayRef.slice (granuleSize * idx) granuleSize)) =
      .ok (whole.slice (granuleSize * idx) granuleSize) := by
  have fields := holds.fields
  have arrays : whole.columns.map (ArrayRef.slice (granuleSize * idx) granuleSize) ≠ [] := by
    intro none
    have := holds.stored.length_eq
    rw [List.map_eq_nil_iff.mp none] at this
    exact nonempty (List.length_eq_zero_iff.mp this)
  have made := RecordBatch.tryNew_eq_ok arrays
    (whole.slice (granuleSize * idx) granuleSize).typed
    (whole.slice (granuleSize * idx) granuleSize).lengths
  rw [← fields]
  exact made

/-- The readers of a part: there is a first, and it has a granule for every 512 rows
begun. -/
theorem open_first (nonempty : columns ≠ []) (holds : PartHolds lz4 columns partDir whole) :
    ∃ r rest, columns.mapM (ColumnReaderKind.open partDir) = .ok (r :: rest) ∧
      List.Forall₂ (ReaderOn lz4) (r :: rest) whole.columns ∧
      r.granuleCount = BlockLayout.granuleCount granuleSize whole.numRows := by
  obtain ⟨readers, opened, areOn⟩ := open_columns holds.stored holds.types
  have lengths := whole.lengths
  cases readers with
  | nil =>
      have none := holds.stored.length_eq.trans areOn.length_eq.symm
      exact (nonempty (List.length_eq_zero_iff.mp none)).elim
  | cons r rest =>
      refine ⟨r, rest, opened, areOn.imp fun _ _ both => both.1, ?_⟩
      cases columns' : whole.columns with
      | nil => rw [columns'] at areOn; cases areOn
      | cons a arrays =>
          rw [columns'] at areOn lengths
          cases areOn with
          | cons isOn _ => rw [isOn.2, lengths a (by simp)]

/-- Reading a part granule by granule gives the granules of the batch it holds. -/
theorem readPart_eq (holds : PartHolds lz4 columns partDir whole) (nonempty : columns ≠ []) :
    readPart lz4 columns partDir = (granules whole).map .ok := by
  obtain ⟨r, rest, opened, areOn, count⟩ := open_first nonempty holds
  rw [readPart, opened]
  simp only [count, granules, List.map_map]
  refine Eq.trans (List.filterMap_congr fun idx member => ?_)
    (congrFun List.filterMap_eq_map _)
  obtain ⟨readers', read, _⟩ := readColumns_eq holds.types areOn whole.lengths holds.offsets
    (List.mem_range.mp member)
  simp only [read, tryNew_granule holds nonempty idx]
  rfl

end Holds

/-! ## Runs of a scan -/

section Runs

variable (lz4 : Lz4) (columns : List ColumnSchema) (skip : PartDir → Bool)

/-- What a scan returns of a part. -/
def scanItems (partDir : PartDir) : List BatchResult :=
  if skip partDir then [] else readPart lz4 columns partDir

/-- A part that is left out, or holds a batch with a row. -/
def Scannable (partDir : PartDir) : Prop :=
  skip partDir = false → ∃ whole, PartHolds lz4 columns partDir whole ∧ 0 < whole.numRows

/-- How many turns a scan takes for parts. -/
def scanTurns (parts : List PartDir) : Nat :=
  (parts.map fun partDir => 1 + (scanItems lz4 columns skip partDir).length).sum

/-- The state of a scan at work: between two parts, or in the middle of the last part it
was handed, with the readers open on it. -/
inductive ScanAt (parts : List PartDir) (sent : List BatchResult) (turns : Nat) :
    FullScanExec → Prop
  | between {s : FullScanExec} (cols : s.columns = columns)
      (schema : s.schema = columns.map Field.ofColumn) (closed : s.readers = [])
      (all : sent = parts.flatMap (scanItems lz4 columns skip))
      (time : turns ≤ scanTurns lz4 columns skip parts) : ScanAt parts sent turns s
  | within {s : FullScanExec} {before : List PartDir} {partDir : PartDir} {whole : RecordBatch}
      (cols : s.columns = columns) (schema : s.schema = columns.map Field.ofColumn)
      (last : parts = before ++ [partDir]) (taken : skip partDir = false)
      (holds : PartHolds lz4 columns partDir whole)
      (areOn : List.Forall₂ (ReaderOn lz4) s.readers whole.columns)
      (count : s.granuleCount = BlockLayout.granuleCount granuleSize whole.numRows)
      (inRange : s.granuleIdx < s.granuleCount)
      (some : sent = before.flatMap (scanItems lz4 columns skip) ++
        ((granules whole).take s.granuleIdx).map .ok)
      (time : turns ≤ scanTurns lz4 columns skip before + 1 + s.granuleIdx) :
      ScanAt parts sent turns s

/-- The phases of a scan. -/
inductive ScanPhase (turns : Nat) (parts : List PartDir) (exhausted : Bool)
    (sent : List BatchResult) : Phase FullScanExec BatchResult → Prop
  | running {s : FullScanExec} (isAt : ScanAt lz4 columns skip parts sent turns s) :
      ScanPhase turns parts exhausted sent (.running s)
  | sending {s : FullScanExec} {item : BatchResult}
      (isAt : ScanAt lz4 columns skip parts (sent ++ [item]) turns s) :
      ScanPhase turns parts exhausted sent (.sending item s)
  | finished (told : exhausted = true)
      (all : sent = parts.flatMap (scanItems lz4 columns skip))
      (time : turns ≤ scanTurns lz4 columns skip parts + 1) :
      ScanPhase turns parts exhausted sent .finished

variable {lz4 columns skip}

theorem scanItems_eq {partDir : PartDir} {whole : RecordBatch} (nonempty : columns ≠ [])
    (taken : skip partDir = false) (holds : PartHolds lz4 columns partDir whole) :
    scanItems lz4 columns skip partDir = (granules whole).map .ok := by
  rw [scanItems, taken, if_neg (by simp), readPart_eq holds nonempty]

theorem scanTurns_append (before : List PartDir) (partDir : PartDir) :
    scanTurns lz4 columns skip (before ++ [partDir]) =
      scanTurns lz4 columns skip before + (1 + (scanItems lz4 columns skip partDir).length) := by
  simp [scanTurns]

/-- Reading the next granule of the open part returns it. -/
theorem ScanAt.readNext {parts : List PartDir} {sent : List BatchResult} {turns : Nat}
    {exhausted : Bool} {s : FullScanExec} (nonempty : columns ≠ [])
    (isAt : ScanAt lz4 columns skip parts sent turns s) (isOpen : s.readers ≠ []) :
    ScanPhase lz4 columns skip (turns + 1) parts exhausted sent (s.readNext lz4).phase := by
  cases isAt with
  | between _ _ closed _ _ => exact (isOpen closed).elim
  | @within before partDir whole cols schema last taken holds areOn count inRange sofar time =>
      obtain ⟨readers', read, areOn'⟩ := readColumns_eq holds.types areOn whole.lengths
        holds.offsets (count ▸ inRange)
      have items : scanItems lz4 columns skip partDir = (granules whole).map .ok :=
        scanItems_eq nonempty taken holds
      have size : (granules whole).length = s.granuleCount :=
        (granules_length whole).trans count.symm
      have next : ((granules whole).take (s.granuleIdx + 1)).map (.ok : RecordBatch → BatchResult) =
          ((granules whole).take s.granuleIdx).map .ok ++
            [.ok (whole.slice (granuleSize * s.granuleIdx) granuleSize)] := by
        rw [List.take_succ_eq_append_getElem (size ▸ inRange), List.map_append]
        simp [granules]
      have sent' : sent ++ [.ok (whole.slice (granuleSize * s.granuleIdx) granuleSize)] =
          before.flatMap (scanItems lz4 columns skip) ++
            ((granules whole).take (s.granuleIdx + 1)).map .ok := by
        rw [sofar, next, List.append_assoc]
      simp only [FullScanExec.readNext, cols, schema, read, tryNew_granule holds nonempty,
        Outcome.mapErr_ok, Turn.returning, Turn.phase]
      by_cases ended : s.granuleCount ≤ s.granuleIdx + 1
      · -- the last granule: the readers are closed
        have all : (granules whole).take (s.granuleIdx + 1) = granules whole :=
          List.take_of_length_le (size ▸ ended)
        rw [if_pos ended]
        refine .sending (.between rfl rfl rfl ?_ ?_)
        · rw [sent', all, last, List.flatMap_append, List.flatMap_singleton, items]
        · rw [last, scanTurns_append, items, List.length_map, size]
          omega
      · rw [if_neg ended]
        exact .sending (.within rfl rfl last taken holds areOn' count (Nat.lt_of_not_le ended)
          sent' (Nat.succ_le_succ time))

/-- Opening the part that was handed out. -/
theorem ScanAt.openPart {parts : List PartDir} {sent : List BatchResult} {turns : Nat}
    {exhausted : Bool} {s : FullScanExec} (nonempty : columns ≠ [])
    (isAt : ScanAt lz4 columns skip parts sent turns s) (closed : s.readers = [])
    {partDir : PartDir} (scannable : Scannable lz4 columns skip partDir) :
    ScanPhase lz4 columns skip (turns + 1) (parts ++ [partDir]) exhausted sent
      (if skip partDir then Turn.again s else s.openPart partDir).phase := by
  cases isAt with
  | within _ _ _ _ holds areOn _ _ _ _ =>
      rw [closed] at areOn
      have none := holds.stored.length_eq.trans areOn.length_eq.symm
      exact (nonempty (List.length_eq_zero_iff.mp none)).elim
  | between cols schema _ all time =>
      cases taken : skip partDir with
      | true =>
          refine .running (.between cols schema closed ?_ ?_)
          · simp [all, scanItems, taken]
          · rw [scanTurns_append]
            omega
      | false =>
          obtain ⟨whole, holds, row⟩ := scannable taken
          obtain ⟨r, rest, opened, areOn, count⟩ := open_first nonempty holds
          simp only [Bool.false_eq_true, if_false, FullScanExec.openPart, cols, schema, opened]
          exact .running (.within rfl rfl rfl taken holds areOn count
            (count ▸ (lt_granuleCount granuleSize_pos).mpr (by simpa using row))
            (by simp [all]) (by simpa using Nat.succ_le_succ time))

/-- **Runs of a scan.** -/
theorem scan_runs {parts : List PartDir} (nonempty : columns ≠ [])
    (scannable : ∀ partDir ∈ parts, Scannable lz4 columns skip partDir) {turns : Nat}
    {handed : List PartDir} {exhausted : Bool} {sent : List BatchResult}
    {phase : Phase FullScanExec BatchResult} (part : handed.Sublist parts)
    (runs : Runs (FullScanExec.actSkipping lz4 skip) (.new columns (columns.map Field.ofColumn))
      turns handed exhausted sent phase) :
    ScanPhase lz4 columns skip turns handed exhausted sent phase := by
  induction runs with
  | start => exact .running (.between rfl rfl rfl rfl (Nat.le_refl 0))
  | @turn n handed exhausted sent s t before acts ih =>
      cases ih part with
      | running isAt =>
          unfold FullScanExec.actSkipping at acts
          split at acts
          · cases acts
          · rename_i isOpen
            cases acts
            exact isAt.readNext nonempty (by simpa using isOpen)
  | @handed n handed sent s k before acts partDir ih =>
      cases ih ((List.sublist_append_left _ _).trans part) with
      | running isAt =>
          unfold FullScanExec.actSkipping at acts
          split at acts
          · rename_i closed
            cases acts
            exact isAt.openPart nonempty (by simpa using closed)
              (scannable partDir (part.subset (by simp)))
          · cases acts
  | @exhausted n handed exhausted sent s k before acts ih =>
      cases ih part with
      | running isAt =>
          unfold FullScanExec.actSkipping at acts
          split at acts
          · rename_i closed
            cases acts
            cases isAt with
            | between _ _ _ all time => exact .finished rfl all (Nat.succ_le_succ time)
            | within _ _ _ _ holds areOn _ _ _ _ =>
                rw [List.isEmpty_iff.mp closed] at areOn
                have none := holds.stored.length_eq.trans areOn.length_eq.symm
                exact (nonempty (List.length_eq_zero_iff.mp none)).elim
          · cases acts
  | sent before ih =>
      cases ih part with
      | sending isAt => exact .running isAt

/-- **A scan delivers the granules of the parts it is handed.** -/
theorem delivers_scan {parts : List PartDir} (nonempty : columns ≠ [])
    (scannable : ∀ partDir ∈ parts, Scannable lz4 columns skip partDir) :
    Delivers (FullScanExec.actSkipping lz4 skip) (.new columns (columns.map Field.ofColumn)) parts
      (List.flatMap (scanItems lz4 columns skip)) 1
      (fun partDir => 1 + (scanItems lz4 columns skip partDir).length) := by
  constructor
  · intro n handed exhausted sent part runs
    cases scan_runs nonempty scannable part runs
  · intro n handed exhausted sent phase part runs
    have begins : ∀ {s : FullScanExec} {sent : List BatchResult},
        ScanAt lz4 columns skip handed sent n s →
          sent <+: handed.flatMap (scanItems lz4 columns skip) := by
      intro s sent isAt
      cases isAt with
      | between _ _ _ all _ => rw [all]
      | within _ _ last taken holds _ _ _ sofar _ =>
          rw [sofar, last, List.flatMap_append, List.flatMap_singleton,
            scanItems_eq nonempty taken holds]
          exact (List.prefix_append_right_inj _).mpr ((List.take_prefix _ _).map _)
    cases scan_runs nonempty scannable part runs with
    | running isAt => simpa [Phase.pending] using begins isAt
    | sending isAt => exact begins isAt
    | finished _ all _ => simp [Phase.pending, all]
  · intro n handed exhausted sent part runs
    cases scan_runs nonempty scannable part runs with
    | finished _ all _ => exact all
  · intro n handed exhausted sent phase part runs
    have inTime : ∀ {s : FullScanExec} {sent : List BatchResult},
        ScanAt lz4 columns skip handed sent n s →
          n ≤ 1 + scanTurns lz4 columns skip handed := by
      intro s sent isAt
      cases isAt with
      | between _ _ _ _ time => omega
      | within _ _ last taken holds _ count inRange _ time =>
          rw [last, scanTurns_append, scanItems_eq nonempty taken holds, List.length_map,
            granules_length, ← count]
          omega
    cases scan_runs nonempty scannable part runs with
    | running isAt => exact inTime isAt
    | sending isAt => exact inTime isAt
    | finished _ _ time => exact time.trans (Nat.le_of_eq (Nat.add_comm _ 1))

theorem exhausts_scan {parts : List PartDir} (nonempty : columns ≠ [])
    (scannable : ∀ partDir ∈ parts, Scannable lz4 columns skip partDir) :
    Exhausts (FullScanExec.actSkipping lz4 skip) (.new columns (columns.map Field.ofColumn))
      parts := by
  intro n handed exhausted sent part runs
  cases scan_runs nonempty scannable part runs with
  | finished told _ _ => exact told

end Runs

end TinyOlap.Execution
