import TinyOlap.Storage.Files

/-!
# Zone maps

The zone map of a part holds the bounds of its numeric columns, each bound widened to
eight bytes. Its file starts with a header entry for each column, which names the
column and says where in the file its bounds are; the bounds follow. The number of
columns is written in 16 bits, so that with more columns than that the reader sees
only some of them, but no bound is ever read as that of another column
(`readZoneMap_writeZoneMap`).
-/

set_option autoImplicit false

namespace TinyOlap.Storage

open Library Encoding

def zoneMapVersion : UInt8 := 1

/-- One min/max pair of eight bytes each. -/
@[ext] structure ZoneEntry where
  minBytes : Bytes
  maxBytes : Bytes
  min_length : minBytes.length = 8
  max_length : maxBytes.length = 8
deriving DecidableEq

/-- One column's bound, ready to serialize. -/
structure EncodedZoneMapEntry where
  colName : String
  typeTag : UInt8
  entry : ZoneEntry
deriving DecidableEq

/-- One column's bounds, as they are read back. -/
structure ColumnZone where
  typeTag : UInt8
  entries : List ZoneEntry
deriving DecidableEq

/-! ## Writing -/

/-- The size of a column's entry in the header. -/
def headerEntrySize (e : EncodedZoneMapEntry) : Nat := 2 + (utf8 e.colName).length + 1 + 4 + 8

/-- The size of the header. -/
def headerSize (entries : List EncodedZoneMapEntry) : Nat :=
  1 + 2 + (entries.map headerEntrySize).sum

/-- A column's entry in the header: name, type tag, one pair of bounds, their offset. -/
def headerEntry (e : EncodedZoneMapEntry) (dataOffset : Nat) : Bytes :=
  leBytes 2 (utf8 e.colName).length ++ utf8 e.colName ++ [e.typeTag] ++ leBytes 4 1 ++
    leBytes 8 dataOffset

/-- The header entries; each column's bounds take 16 bytes. -/
def headerEntries : List EncodedZoneMapEntry → Nat → Bytes
  | [], _ => []
  | e :: entries, dataOffset => headerEntry e dataOffset ++ headerEntries entries (dataOffset + 16)

def zoneMapBytes (entries : List EncodedZoneMapEntry) : Bytes :=
  [zoneMapVersion] ++ leBytes 2 entries.length ++ headerEntries entries (headerSize entries) ++
    entries.flatMap fun e => e.entry.minBytes ++ e.entry.maxBytes

/-- Serialize zone map entries into `part.zonemap`. -/
def writeZoneMap (partDir : PartDir) (entries : List EncodedZoneMapEntry) : IoResult PartDir := do
  let partDir ← partDir.create .zonemap
  partDir.write .zonemap (zoneMapBytes entries)

/-! ## Reading -/

/-- The bounds of the columns, by name. -/
def ZoneMap : Type := String → Option ColumnZone

namespace ZoneMap

def empty : ZoneMap := fun _ => none

def get (zones : ZoneMap) (name : String) : Option ColumnZone := zones name

def insert (zones : ZoneMap) (name : String) (zone : ColumnZone) : ZoneMap :=
  fun other => if other = name then some zone else zones other

end ZoneMap

structure Header where
  name : String
  typeTag : UInt8
  entryCount : Nat
  dataOffset : Nat

/-- Read a header entry and return the position behind it. -/
def readHeader (file : Bytes) (position : Nat) : IoResult (Header × Nat) := do
  let nameLen ← readExact file position 2
  let nameBytes ← readExact file (position + 2) (leNat nameLen)
  let name ← .ofOption ⟨.invalidData, "invalid utf-8 sequence"⟩ (fromUtf8 nameBytes)
  let position := position + 2 + leNat nameLen
  let typeTag ← readExact file position 1
  let entryCount ← readExact file (position + 1) 4
  let dataOffset ← readExact file (position + 5) 8
  .ok (⟨name, typeTag.headD 0, leNat entryCount, leNat dataOffset⟩, position + 13)

/-- Pass 1: the header entries, one after the other. -/
def readHeaders (file : Bytes) : Nat → Nat → IoResult (List Header)
  | 0, _ => .ok []
  | n + 1, position => do
      let (header, position) ← readHeader file position
      let headers ← readHeaders file n position
      .ok (header :: headers)

/-- The eight bytes of a bound. -/
def readBound (file : Bytes) (position : Nat) : IoResult { b : Bytes // b.length = 8 } := do
  let bytes ← readExact file position 8
  if length : bytes.length = 8 then .ok ⟨bytes, length⟩ else .panic

/-- The pairs of bounds of a column. -/
def readZoneEntries (file : Bytes) : Nat → Nat → IoResult (List ZoneEntry)
  | 0, _ => .ok []
  | n + 1, position => do
      let minBytes ← readBound file position
      let maxBytes ← readBound file (position + 8)
      let entries ← readZoneEntries file n (position + 16)
      .ok (⟨minBytes.1, maxBytes.1, minBytes.2, maxBytes.2⟩ :: entries)

/-- Pass 2: for each header the bounds it points at, inserted under its name. -/
def readZones (file : Bytes) : List Header → ZoneMap → IoResult ZoneMap
  | [], zones => .ok zones
  | h :: headers, zones => do
      let entries ← readZoneEntries file h.entryCount h.dataOffset
      readZones file headers (zones.insert h.name ⟨h.typeTag, entries⟩)

/-- The zone map in the contents of a file. -/
def parseZoneMap (file : Bytes) : IoResult ZoneMap := do
  let version ← readExact file 0 1
  if version.headD 0 ≠ zoneMapVersion then
    .err ⟨.invalidData, "unsupported zone map version: " ++ toString (version.headD 0)⟩
  else do
    let colCount ← readExact file 1 2
    let headers ← readHeaders file (leNat colCount) 3
    readZones file headers .empty

/-- Read `part.zonemap` back into memory. -/
def readZoneMap (partDir : PartDir) : IoResult ZoneMap := do
  let file ← partDir.read .zonemap
  parseZoneMap file

/-! ## Round trip -/

/-- What a serialized entry is read back as. -/
def EncodedZoneMapEntry.zone (e : EncodedZoneMapEntry) : ColumnZone := ⟨e.typeTag, [e.entry]⟩

/-- The headers that are read back. -/
def headersFrom : List EncodedZoneMapEntry → Nat → List Header
  | [], _ => []
  | e :: entries, dataOffset =>
      ⟨e.colName, e.typeTag, 1, dataOffset⟩ :: headersFrom entries (dataOffset + 16)

@[simp] theorem headersFrom_length (entries : List EncodedZoneMapEntry) (dataOffset : Nat) :
    (headersFrom entries dataOffset).length = entries.length := by
  induction entries generalizing dataOffset with
  | nil => rfl
  | cons e entries ih => simp [headersFrom, ih]

@[simp] theorem headerEntry_length (e : EncodedZoneMapEntry) (dataOffset : Nat) :
    (headerEntry e dataOffset).length = headerEntrySize e := by
  simp only [headerEntry, headerEntrySize, List.length_append, leBytes_length,
    List.length_singleton]

@[simp] theorem headerEntries_length (entries : List EncodedZoneMapEntry) (dataOffset : Nat) :
    (headerEntries entries dataOffset).length = (entries.map headerEntrySize).sum := by
  induction entries generalizing dataOffset with
  | nil => rfl
  | cons e entries ih => simp [headerEntries, ih]

/-- A header entry is read back, given that its name is short and its offset fits. -/
theorem readHeader_entry {file rest : Bytes} {position dataOffset : Nat}
    {e : EncodedZoneMapEntry} (short : (utf8 e.colName).length < 2 ^ 16)
    (fits : dataOffset < 2 ^ 64) (inside : position ≤ file.length)
    (here : file.drop position = headerEntry e dataOffset ++ rest) :
    readHeader file position =
      .ok (⟨e.colName, e.typeTag, 1, dataOffset⟩, position + headerEntrySize e) := by
  have room : position + headerEntrySize e ≤ file.length := by
    have := congrArg List.length here
    rw [List.length_drop, List.length_append, headerEntry_length] at this
    omega
  rw [headerEntrySize] at room
  have atName : file.drop position = leBytes 2 (utf8 e.colName).length ++
      (utf8 e.colName ++ ([e.typeTag] ++ (leBytes 4 1 ++ (leBytes 8 dataOffset ++ rest)))) := by
    simpa [headerEntry] using here
  have atBytes := drop_add_of_drop atName (leBytes_length _ _)
  have atTag := drop_add_of_drop atBytes rfl
  have atCount := drop_add_of_drop (n := 1) atTag rfl
  have atOffset := drop_add_of_drop atCount (leBytes_length _ _)
  have len : leNat (leBytes 2 (utf8 e.colName).length) = (utf8 e.colName).length :=
    leNat_leBytes_of_lt (w := 2) (by omega)
  rw [readHeader, readExact_of_drop atName (leBytes_length _ _) inside, Outcome.ok_bind, len,
    readExact_of_drop atBytes rfl (by omega), Outcome.ok_bind, fromUtf8_utf8]
  simp only [Outcome.ofOption, Outcome.ok_bind]
  rw [readExact_of_drop (n := 1) atTag rfl (by omega), Outcome.ok_bind,
    readExact_of_drop atCount (leBytes_length _ _) (by omega), Outcome.ok_bind,
    readExact_of_drop atOffset (leBytes_length _ _) (by omega), Outcome.ok_bind,
    leNat_leBytes_of_lt (w := 8) (by omega), leNat_leBytes_of_lt (w := 4) (by decide)]
  simp only [List.headD_cons, headerEntrySize]
  congr 2
  omega

theorem readHeaders_entries {file : Bytes} (entries : List EncodedZoneMapEntry)
    (short : ∀ e ∈ entries, (utf8 e.colName).length < 2 ^ 16) :
    ∀ (n position dataOffset : Nat) (rest : Bytes), n ≤ entries.length →
      dataOffset + 16 * entries.length < 2 ^ 64 → position ≤ file.length →
      file.drop position = headerEntries entries dataOffset ++ rest →
      readHeaders file n position = .ok ((headersFrom entries dataOffset).take n) := by
  induction entries with
  | nil =>
      intro n position dataOffset rest few _ _ _
      rw [Nat.le_zero.mp few]
      rfl
  | cons e entries ih =>
      intro n position dataOffset rest few fits inside here
      cases n with
      | zero => rfl
      | succ n =>
          simp only [List.length_cons] at few fits
          rw [headerEntries, List.append_assoc] at here
          have next := drop_add_of_drop here (headerEntry_length _ _)
          have room := congrArg List.length here
          rw [List.length_drop, List.length_append, headerEntry_length] at room
          rw [readHeaders, readHeader_entry (short e (by simp)) (by omega) inside here,
            Outcome.ok_bind]
          simp only
          rw [ih (fun d member => short d (by simp [member])) n _ (dataOffset + 16) rest (by omega)
            (by omega) (by omega) next]
          rfl

/-- The bounds at an offset are read back. -/
theorem readZoneEntries_one {file rest : Bytes} {position : Nat} {entry : ZoneEntry}
    (inside : position ≤ file.length)
    (here : file.drop position = entry.minBytes ++ entry.maxBytes ++ rest) :
    readZoneEntries file 1 position = .ok [entry] := by
  have room := congrArg List.length here
  simp only [List.length_drop, List.length_append, entry.min_length, entry.max_length] at room
  rw [List.append_assoc] at here
  have next := drop_add_of_drop here entry.min_length
  have first : readBound file position = .ok ⟨entry.minBytes, entry.min_length⟩ := by
    rw [readBound, readExact_of_drop here entry.min_length inside, Outcome.ok_bind,
      dif_pos entry.min_length]
  have second : readBound file (position + 8) = .ok ⟨entry.maxBytes, entry.max_length⟩ := by
    rw [readBound, readExact_of_drop next entry.max_length (by omega), Outcome.ok_bind,
      dif_pos entry.max_length]
  rw [readZoneEntries, first, Outcome.ok_bind, second, Outcome.ok_bind, readZoneEntries]
  rfl

/-- Insert entries one after the other: of two with the same name the later one
stays. -/
def insertZones (entries : List EncodedZoneMapEntry) (zones : ZoneMap) : ZoneMap :=
  entries.foldl (fun zones e => zones.insert e.colName e.zone) zones

theorem readZones_headers {file : Bytes} (entries : List EncodedZoneMapEntry) :
    ∀ (n dataOffset : Nat) (zones : ZoneMap), dataOffset ≤ file.length →
      (file.drop dataOffset = entries.flatMap fun e => e.entry.minBytes ++ e.entry.maxBytes) →
      readZones file ((headersFrom entries dataOffset).take n) zones =
        .ok (insertZones (entries.take n) zones) := by
  induction entries with
  | nil =>
      intro n dataOffset zones _ _
      simp [headersFrom, readZones, insertZones]
  | cons e entries ih =>
      intro n dataOffset zones inside here
      cases n with
      | zero => rfl
      | succ n =>
          rw [List.flatMap_cons] at here
          have width : (e.entry.minBytes ++ e.entry.maxBytes).length = 16 := by
            rw [List.length_append, e.entry.min_length, e.entry.max_length]
          have room := congrArg List.length here
          rw [List.length_drop, List.length_append, width] at room
          have next := drop_add_of_drop here width
          rw [headersFrom, List.take_succ_cons, readZones, readZoneEntries_one inside here,
            Outcome.ok_bind, ih n (dataOffset + 16) _ (by omega) next]
          rfl

theorem zoneMapBytes_length (entries : List EncodedZoneMapEntry) :
    (zoneMapBytes entries).length = headerSize entries + 16 * entries.length := by
  have data : (entries.flatMap fun e => e.entry.minBytes ++ e.entry.maxBytes).length =
      16 * entries.length :=
    length_flatMap_of_width fun e _ => by
      rw [List.length_append, e.entry.min_length, e.entry.max_length]
  simp only [zoneMapBytes, List.length_append, List.length_singleton, leBytes_length,
    headerEntries_length, data, headerSize]

/-- The parts of the file: the version, the number of columns and their headers, which are
read back as far as 16 bits can count them, and the bounds. -/
theorem zoneMapBytes_parts {entries : List EncodedZoneMapEntry}
    (short : ∀ e ∈ entries, (utf8 e.colName).length < 2 ^ 16)
    (fits : (zoneMapBytes entries).length < 2 ^ 64) :
    readExact (zoneMapBytes entries) 0 1 = .ok [zoneMapVersion] ∧
      readExact (zoneMapBytes entries) 1 2 = .ok (leBytes 2 entries.length) ∧
      readHeaders (zoneMapBytes entries) (leNat (leBytes 2 entries.length)) 3 =
        .ok ((headersFrom entries (headerSize entries)).take (entries.length % 2 ^ 16)) ∧
      (zoneMapBytes entries).drop (headerSize entries) =
        entries.flatMap fun e => e.entry.minBytes ++ e.entry.maxBytes := by
  have total := zoneMapBytes_length entries
  have atVersion : (zoneMapBytes entries).drop 0 = [zoneMapVersion] ++
      (leBytes 2 entries.length ++ (headerEntries entries (headerSize entries) ++
        entries.flatMap fun e => e.entry.minBytes ++ e.entry.maxBytes)) := by
    simp [zoneMapBytes]
  have atCount := drop_add_of_drop (n := 1) atVersion rfl
  have atHeader := drop_add_of_drop atCount (leBytes_length _ _)
  have atData := drop_add_of_drop atHeader (headerEntries_length _ _)
  have small : headerSize entries = 3 + (entries.map headerEntrySize).sum := rfl
  refine ⟨readExact_of_drop (n := 1) atVersion rfl (by omega),
    readExact_of_drop atCount (leBytes_length _ _) (by omega), ?_, atData⟩
  rw [leNat_leBytes]
  exact readHeaders_entries entries short (entries.length % 256 ^ 2) 3 (headerSize entries) _
    (Nat.mod_le _ _) (by omega) (by omega) atHeader

/-- **A written zone map is read back**, up to the number of columns that 16 bits can
count. -/
theorem parseZoneMap_zoneMapBytes {entries : List EncodedZoneMapEntry}
    (short : ∀ e ∈ entries, (utf8 e.colName).length < 2 ^ 16)
    (fits : (zoneMapBytes entries).length < 2 ^ 64) :
    parseZoneMap (zoneMapBytes entries) =
      .ok (insertZones (entries.take (entries.length % 2 ^ 16)) .empty) := by
  obtain ⟨version, count, headers, data⟩ := zoneMapBytes_parts short fits
  have total := zoneMapBytes_length entries
  rw [parseZoneMap, version, Outcome.ok_bind]
  simp only [List.headD_cons, ne_eq, not_true_eq_false, if_false]
  rw [count, Outcome.ok_bind, headers, Outcome.ok_bind,
    readZones_headers entries _ _ _ (by omega) data]

theorem writeZoneMap_eq_ok {partDir partDir' : PartDir} {entries : List EncodedZoneMapEntry}
    (written : writeZoneMap partDir entries = .ok partDir') :
    (zoneMapBytes entries).length < 2 ^ 64 ∧
      partDir' = partDir.set .zonemap (zoneMapBytes entries) := by
  obtain ⟨dir, created, filled⟩ := Outcome.bind_eq_ok.mp written
  obtain ⟨_, rfl⟩ := PartDir.create_eq_ok created
  obtain ⟨size, rfl⟩ := PartDir.write_eq_ok filled
  unfold PartDir.maxFileBytes at size
  refine ⟨by omega, funext fun name => ?_⟩
  simp only [PartDir.set]
  split <;> rfl

/-- The name of a zone found in the map is that of an entry, and the zone is the one
of the last entry with that name. -/
theorem insertZones_get {entries : List EncodedZoneMapEntry} {zones : ZoneMap} {name : String}
    {zone : ColumnZone} (found : (insertZones entries zones).get name = some zone) :
    (∃ e ∈ entries, e.colName = name ∧ e.zone = zone) ∨ zones.get name = some zone := by
  induction entries generalizing zones with
  | nil => exact .inr found
  | cons e entries ih =>
      rcases ih found with ⟨d, member, here⟩ | before
      · exact .inl ⟨d, by simp [member], here⟩
      · by_cases same : name = e.colName
        · have here : some e.zone = some zone := (if_pos same).symm.trans before
          exact .inl ⟨e, by simp, same.symm, Option.some.inj here⟩
        · exact .inr ((if_neg same).symm.trans before)

/-- Under a name that no entry has, nothing is inserted. -/
theorem insertZones_get_of_absent {entries : List EncodedZoneMapEntry} {name : String}
    (absent : ∀ e ∈ entries, e.colName ≠ name) (zones : ZoneMap) :
    (insertZones entries zones).get name = zones.get name := by
  induction entries generalizing zones with
  | nil => rfl
  | cons e entries ih =>
      have other : name ≠ e.colName := fun same => absent e (by simp) same.symm
      exact (ih (fun d member => absent d (by simp [member])) _).trans (if_neg other)

/-- With distinct names every entry is found under its name. -/
theorem insertZones_get_of_mem {entries : List EncodedZoneMapEntry}
    (distinct : (entries.map EncodedZoneMapEntry.colName).Nodup) {e : EncodedZoneMapEntry}
    (member : e ∈ entries) (zones : ZoneMap) :
    (insertZones entries zones).get e.colName = some e.zone := by
  induction entries generalizing zones with
  | nil => cases member
  | cons d entries ih =>
      rw [List.map_cons, List.nodup_cons] at distinct
      rcases List.mem_cons.mp member with rfl | later
      · have absent : ∀ d ∈ entries, d.colName ≠ e.colName := fun d inside same =>
          distinct.1 (List.mem_map.mpr ⟨d, inside, same⟩)
        exact (insertZones_get_of_absent absent _).trans (if_pos rfl)
      · exact ih distinct.2 later _

end TinyOlap.Storage
