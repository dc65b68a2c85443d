import TinyOlap.Execution.Executor
import TinyOlap.Execution.ZoneMapSkip

/-!
# Scans

A scan asks the work source for a part, opens a reader for each of its columns, and
returns one batch for each granule. A zone map scan first looks at the zone map of the
part and leaves out parts in which its predicate cannot hold. Apart from that both scans
are the same.
-/

set_option autoImplicit false

namespace TinyOlap.Execution

open Library Library.WorkPool Library.BlockLayout Catalog Arrow Storage Physical

/-! ## Readers -/

inductive ColumnReaderKind where
  | numeric (r : ColumnReader)
  | str (r : StringColumnReader)

namespace ColumnReaderKind

/-- Open the reader of a column of a part. -/
def «open» (partDir : PartDir) (col : ColumnSchema) : IoResult ColumnReaderKind :=
  match col.dataType with
  | .str => do
      let r ← StringColumnReader.open partDir col.name
      .ok (.str r)
  | .fixed _ => do
      let r ← ColumnReader.open partDir col.name
      .ok (.numeric r)

def granuleCount : ColumnReaderKind → Nat
  | numeric r => r.granuleCount
  | str r => r.granuleCount

/-- Read a granule into an array. The offsets of a string array are 32-bit signed. -/
def readGranule (lz4 : Lz4) (col : ColumnSchema) (reader : ColumnReaderKind) (idx : Nat) :
    IoResult (ArrayRef × ColumnReaderKind) :=
  match reader with
  | numeric r =>
      match col.dataType with
      | .fixed t => do
          let (values, r) ← ColumnReader.readGranule t.Native lz4 r idx
          .ok (⟨.data (.fixed t), values⟩, .numeric r)
      | .str => .panic
  | str r => do
      let (values, r) ← StringColumnReader.readGranule lz4 r idx
      let array : ArrayRef := ⟨.data .str, values⟩
      if array.textBytes < 2 ^ 31 then .ok (array, .str r) else .panic

end ColumnReaderKind

/-- Read a granule of every column, up to the first error. -/
def readColumns (lz4 : Lz4) (idx : Nat) : List (ColumnSchema × ColumnReaderKind) →
    IoResult (List ArrayRef) × List ColumnReaderKind
  | [] => (.ok [], [])
  | (col, reader) :: rest =>
      match reader.readGranule lz4 col idx with
      | .ok (array, reader) =>
          let (arrays, readers) := readColumns lz4 idx rest
          ((array :: ·) <$> arrays, reader :: readers)
      | .err e => (.err e, reader :: rest.map Prod.snd)
      | .panic => (.panic, reader :: rest.map Prod.snd)

/-! ## The scans -/

structure FullScanExec where
  /-- The columns to read from a part, in output order. -/
  columns : List ColumnSchema
  schema : List Field
  granuleIdx : Nat
  granuleCount : Nat
  readers : List ColumnReaderKind

namespace FullScanExec

def new (columns : List ColumnSchema) (schema : List Field) : FullScanExec :=
  ⟨columns, schema, 0, 0, []⟩

/-- Open the readers of a part. The first gives the number of granules. -/
def openPart (s : FullScanExec) (partDir : PartDir) : Turn FullScanExec BatchResult :=
  match s.columns.mapM (ColumnReaderKind.open partDir) with
  | .ok [] => .panic
  | .ok (r :: rest) =>
      .again { s with readers := r :: rest, granuleCount := r.granuleCount, granuleIdx := 0 }
  | .err e => .ret (some (.error (.io e))) s
  | .panic => .panic

/-- Read the next granule of the open part, and close the readers after the last. -/
def readNext (lz4 : Lz4) (s : FullScanExec) : Turn FullScanExec BatchResult :=
  match readColumns lz4 s.granuleIdx (s.columns.zip s.readers) with
  | (.ok arrays, readers) =>
      let granuleIdx := s.granuleIdx + 1
      let readers := if s.granuleCount ≤ granuleIdx then [] else readers
      Turn.returning { s with granuleIdx := granuleIdx, readers := readers }
        ((RecordBatch.tryNew s.schema arrays).mapErr .arrow)
  | (.err e, readers) => .ret (some (.error (.io e))) { s with readers := readers }
  | (.panic, _) => .panic

/-- `next_batch`, with a test that leaves out parts. -/
def actSkipping (lz4 : Lz4) (skip : PartDir → Bool) (s : FullScanExec) :
    Act PartDir FullScanExec BatchResult :=
  if s.readers.isEmpty then
    .nextWork fun
      | none => .ret none s
      | some partDir => if skip partDir then .again s else s.openPart partDir
  else .turn (s.readNext lz4)

/-- `FullScanExec::next_batch`: no part is left out. -/
def act (lz4 : Lz4) (s : FullScanExec) : Act PartDir FullScanExec BatchResult :=
  s.actSkipping lz4 fun _ => false

end FullScanExec

structure ZoneMapScanExec extends FullScanExec where
  skipPredicate : PhysicalExpr

namespace ZoneMapScanExec

def new (columns : List ColumnSchema) (schema : List Field) (skipPredicate : PhysicalExpr) :
    ZoneMapScanExec :=
  ⟨.new columns schema, skipPredicate⟩

/-- `ZoneMapScanExec::next_batch`. -/
def act (lz4 : Lz4) (s : ZoneMapScanExec) : Act PartDir ZoneMapScanExec BatchResult :=
  (s.toFullScanExec.actSkipping lz4 fun partDir =>
    zoneMapCanSkip (loadZoneMap partDir) s.skipPredicate).map
      (Turn.map fun scan => { s with toFullScanExec := scan })

end ZoneMapScanExec

end TinyOlap.Execution
