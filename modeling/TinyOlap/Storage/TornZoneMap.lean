import Mathlib.Algebra.Order.BigOperators.Group.List
import TinyOlap.Storage.ZoneMap

/-!
# Zone-map files, whole and torn

A zone-map file that was written completely is read back as it was written. A file that was
cut off is never read: what the reader finds in a beginning of a file it finds in the whole
file too, so it finds the same headers, and the last of them points at bounds that end with the
whole file. The reader never panics, whatever the file contains.
-/

set_option autoImplicit false

namespace TinyOlap.Storage

open Library Encoding

/-! ## The beginning of a file -/

theorem readExact_eq_ok {file bytes : Bytes} {position n : Nat} :
    readExact file position n = .ok bytes ↔
      position + n ≤ file.length ∧ bytes = (file.drop position).take n := by
  rw [readExact]
  split <;> simp_all [eq_comm]

/-- What is read in the beginning of a file is read in the file. -/
theorem readExact_of_begins {torn file bytes : Bytes} (begins : torn <+: file)
    {position n : Nat} (read : readExact torn position n = .ok bytes) :
    readExact file position n = .ok bytes := by
  obtain ⟨rest, rfl⟩ := begins
  obtain ⟨inside, rfl⟩ := readExact_eq_ok.mp read
  refine readExact_eq_ok.mpr ⟨?_, ?_⟩
  · rw [List.length_append]
    omega
  · rw [List.drop_append_of_le_length (by omega), List.take_append_of_le_length]
    rw [List.length_drop]
    omega

theorem readHeader_of_begins {torn file : Bytes} (begins : torn <+: file) {position : Nat}
    {found : Header × Nat} (read : readHeader torn position = .ok found) :
    readHeader file position = .ok found := by
  obtain ⟨nameLen, length, read⟩ := Outcome.bind_eq_ok.mp read
  obtain ⟨nameBytes, bytes, read⟩ := Outcome.bind_eq_ok.mp read
  obtain ⟨name, decoded, read⟩ := Outcome.bind_eq_ok.mp read
  obtain ⟨typeTag, tag, read⟩ := Outcome.bind_eq_ok.mp read
  obtain ⟨entryCount, count, read⟩ := Outcome.bind_eq_ok.mp read
  obtain ⟨dataOffset, offset, read⟩ := Outcome.bind_eq_ok.mp read
  rw [readHeader, readExact_of_begins begins length, Outcome.ok_bind,
    readExact_of_begins begins bytes, Outcome.ok_bind, decoded, Outcome.ok_bind]
  simp only
  rw [readExact_of_begins begins tag, Outcome.ok_bind, readExact_of_begins begins count,
    Outcome.ok_bind, readExact_of_begins begins offset, Outcome.ok_bind]
  exact read

theorem readHeaders_of_begins {torn file : Bytes} (begins : torn <+: file) {n position : Nat}
    {headers : List Header} (read : readHeaders torn n position = .ok headers) :
    readHeaders file n position = .ok headers := by
  induction n generalizing position headers with
  | zero => exact read
  | succ n ih =>
      obtain ⟨⟨header, next⟩, first, read⟩ := Outcome.bind_eq_ok.mp read
      obtain ⟨rest, later, read⟩ := Outcome.bind_eq_ok.mp read
      rw [readHeaders, readHeader_of_begins begins first, Outcome.ok_bind]
      simp only
      rw [ih later, Outcome.ok_bind]
      exact read

/-! ## The end of a file -/

theorem readBound_eq_ok {file : Bytes} {position : Nat} {bound : { b : Bytes // b.length = 8 }}
    (read : readBound file position = .ok bound) : position + 8 ≤ file.length := by
  obtain ⟨bytes, read, _⟩ := Outcome.bind_eq_ok.mp read
  exact (readExact_eq_ok.mp read).1

theorem readZoneEntries_inside {file : Bytes} {n position : Nat} {entries : List ZoneEntry}
    (read : readZoneEntries file n position = .ok entries) (some_entry : 0 < n) :
    position + 16 * n ≤ file.length := by
  induction n generalizing position entries with
  | zero => cases some_entry
  | succ n ih =>
      obtain ⟨_, _, read⟩ := Outcome.bind_eq_ok.mp read
      obtain ⟨_, second, read⟩ := Outcome.bind_eq_ok.mp read
      obtain ⟨_, later, _⟩ := Outcome.bind_eq_ok.mp read
      have here := readBound_eq_ok second
      rcases Nat.eq_zero_or_pos n with rfl | more
      · omega
      · have rest := ih later more
        omega

/-- A file that is read contains the bounds that its headers point at. -/
theorem readZones_inside {file : Bytes} {headers : List Header} {zones found : ZoneMap}
    (read : readZones file headers zones = .ok found) {h : Header} (member : h ∈ headers)
    (some_entry : 0 < h.entryCount) : h.dataOffset + 16 * h.entryCount ≤ file.length := by
  induction headers generalizing zones with
  | nil => cases member
  | cons first headers ih =>
      obtain ⟨_, here, read⟩ := Outcome.bind_eq_ok.mp read
      rcases List.mem_cons.mp member with rfl | later
      · exact readZoneEntries_inside here some_entry
      · exact ih read later

/-- The bounds of the last column end where the bounds of all columns end. -/
theorem exists_last_header {entries : List EncodedZoneMapEntry} (some_entry : entries ≠ [])
    (dataOffset : Nat) :
    ∃ h ∈ headersFrom entries dataOffset, h.entryCount = 1 ∧
      h.dataOffset + 16 = dataOffset + 16 * entries.length := by
  induction entries generalizing dataOffset with
  | nil => cases some_entry rfl
  | cons e entries ih =>
      rcases entries with _ | ⟨d, entries⟩
      · exact ⟨_, List.mem_singleton.mpr rfl, rfl, rfl⟩
      · obtain ⟨h, member, one, last⟩ := ih (by simp) (dataOffset + 16)
        refine ⟨h, List.mem_cons_of_mem _ member, one, ?_⟩
        simp only [List.length_cons] at last ⊢
        omega

/-! ## No panic -/

theorem readHeader_ne_panic (file : Bytes) (position : Nat) :
    readHeader file position ≠ .panic := by
  refine Outcome.bind_ne_panic (readExact_ne_panic _ _ _) fun nameLen _ => ?_
  refine Outcome.bind_ne_panic (readExact_ne_panic _ _ _) fun nameBytes _ => ?_
  refine Outcome.bind_ne_panic (Outcome.ofOption_ne_panic _ _) fun name _ => ?_
  refine Outcome.bind_ne_panic (readExact_ne_panic _ _ _) fun typeTag _ => ?_
  refine Outcome.bind_ne_panic (readExact_ne_panic _ _ _) fun entryCount _ => ?_
  exact Outcome.bind_ne_panic (readExact_ne_panic _ _ _) fun dataOffset _ => by simp

theorem readHeaders_ne_panic (file : Bytes) (n position : Nat) :
    readHeaders file n position ≠ .panic := by
  induction n generalizing position with
  | zero => simp [readHeaders]
  | succ n ih =>
      refine Outcome.bind_ne_panic (readHeader_ne_panic file position) fun found _ => ?_
      exact Outcome.bind_ne_panic (ih found.2) fun headers _ => by simp

/-- Eight bytes that were asked for are eight bytes. -/
theorem readBound_ne_panic (file : Bytes) (position : Nat) : readBound file position ≠ .panic := by
  refine Outcome.bind_ne_panic (readExact_ne_panic _ _ _) fun bytes read => ?_
  obtain ⟨inside, rfl⟩ := readExact_eq_ok.mp read
  have length : ((file.drop position).take 8).length = 8 := by
    rw [List.length_take, List.length_drop]
    omega
  rw [dif_pos length]
  simp

theorem readZoneEntries_ne_panic (file : Bytes) (n position : Nat) :
    readZoneEntries file n position ≠ .panic := by
  induction n generalizing position with
  | zero => simp [readZoneEntries]
  | succ n ih =>
      refine Outcome.bind_ne_panic (readBound_ne_panic _ _) fun minBytes _ => ?_
      refine Outcome.bind_ne_panic (readBound_ne_panic _ _) fun maxBytes _ => ?_
      exact Outcome.bind_ne_panic (ih _) fun entries _ => by simp

theorem readZones_ne_panic (file : Bytes) (headers : List Header) (zones : ZoneMap) :
    readZones file headers zones ≠ .panic := by
  induction headers generalizing zones with
  | nil => simp [readZones]
  | cons h headers ih =>
      exact Outcome.bind_ne_panic (readZoneEntries_ne_panic _ _ _) fun entries _ => ih _

/-- **Reading a zone map never panics**, whatever the file contains. -/
theorem parseZoneMap_ne_panic (file : Bytes) : parseZoneMap file ≠ .panic := by
  refine Outcome.bind_ne_panic (readExact_ne_panic _ _ _) fun version _ => ?_
  split
  · simp
  · refine Outcome.bind_ne_panic (readExact_ne_panic _ _ _) fun colCount _ => ?_
    exact Outcome.bind_ne_panic (readHeaders_ne_panic _ _ _) fun headers _ =>
      readZones_ne_panic _ _ _

/-! ## Whole and torn -/

/-- **A file that was cut off is not read.** -/
theorem parseZoneMap_torn {entries : List EncodedZoneMapEntry}
    (few : entries.length < 2 ^ 16)
    (short : ∀ e ∈ entries, (utf8 e.colName).length < 2 ^ 16)
    (fits : (zoneMapBytes entries).length < 2 ^ 64) {torn : Bytes}
    (begins : torn <+: zoneMapBytes entries) (strict : torn ≠ zoneMapBytes entries) :
    ∃ e, parseZoneMap torn = .err e := by
  have shorter : torn.length < (zoneMapBytes entries).length :=
    Nat.lt_of_le_of_ne begins.length_le fun same => strict (begins.eq_of_length same)
  cases parsed : parseZoneMap torn with
  | err e => exact ⟨e, rfl⟩
  | panic => exact absurd parsed (parseZoneMap_ne_panic torn)
  | ok zones =>
      exfalso
      obtain ⟨version, _, parsed⟩ := Outcome.bind_eq_ok.mp parsed
      split at parsed
      · cases parsed
      · obtain ⟨colCount, count, parsed⟩ := Outcome.bind_eq_ok.mp parsed
        obtain ⟨headers, found, parsed⟩ := Outcome.bind_eq_ok.mp parsed
        obtain ⟨_, written, headersWritten, _⟩ := zoneMapBytes_parts short fits
        -- the torn file has the headers of the whole file
        have sameCount : colCount = leBytes 2 entries.length :=
          Outcome.ok.inj ((readExact_of_begins begins count).symm.trans written)
        rw [sameCount] at found
        have sameHeaders : headers = headersFrom entries (headerSize entries) := by
          have same := (readHeaders_of_begins begins found).symm.trans headersWritten
          rw [Nat.mod_eq_of_lt few] at same
          rw [Outcome.ok.inj same, List.take_of_length_le (by rw [headersFrom_length])]
        have total := zoneMapBytes_length entries
        rcases Decidable.em (entries = []) with rfl | some_entry
        · have room := (readExact_eq_ok.mp count).1
          simp only [headerSize, List.map_nil, List.sum_nil, List.length_nil] at total
          omega
        · obtain ⟨h, member, one, last⟩ := exists_last_header some_entry (headerSize entries)
          have room := readZones_inside parsed (sameHeaders ▸ member) (by omega)
          omega

/-- A list of entries that 16 bits can count, with names of which 16 bits can count the bytes,
makes a file that the file system accepts. -/
theorem zoneMapBytes_fits {entries : List EncodedZoneMapEntry}
    (few : entries.length < 2 ^ 16)
    (short : ∀ e ∈ entries, (utf8 e.colName).length < 2 ^ 16) :
    (zoneMapBytes entries).length ≤ PartDir.maxFileBytes := by
  have each : ∀ size ∈ entries.map headerEntrySize, size ≤ 2 ^ 17 := by
    intro size member
    obtain ⟨e, inside, rfl⟩ := List.mem_map.mp member
    have := short e inside
    rw [headerEntrySize]
    omega
  have sum := List.sum_le_card_nsmul _ _ each
  rw [List.length_map, nsmul_eq_mul, Nat.cast_id] at sum
  rw [zoneMapBytes_length, headerSize, PartDir.maxFileBytes]
  omega

/-- **A zone map is read back exactly, or not at all.** Entries with distinct names, as many
as the format can count, are written, and each is read back under its name, with its type tag
and its one pair of bounds; no other name has bounds. Every strict beginning of the file is
refused with an error. -/
theorem readZoneMap_whole_or_torn {entries : List EncodedZoneMapEntry}
    (few : entries.length ≤ 65535)
    (short : ∀ e ∈ entries, (utf8 e.colName).length ≤ 65535)
    (distinct : (entries.map EncodedZoneMapEntry.colName).Nodup) (partDir : PartDir) :
    ∃ written file zones, writeZoneMap partDir entries = .ok written ∧
      written .zonemap = some file ∧ readZoneMap written = .ok zones ∧
      (∀ e ∈ entries, zones.get e.colName = some ⟨e.typeTag, [e.entry]⟩) ∧
      (∀ name, (∀ e ∈ entries, e.colName ≠ name) → zones.get name = none) ∧
      ∀ torn, torn <+: file → torn ≠ file →
        ∃ e, readZoneMap (written.set .zonemap torn) = .err e := by
  have few : entries.length < 2 ^ 16 := by omega
  have short : ∀ e ∈ entries, (utf8 e.colName).length < 2 ^ 16 := fun e member =>
    Nat.lt_succ_of_le (short e member)
  have size := zoneMapBytes_fits few short
  have fits : (zoneMapBytes entries).length < 2 ^ 64 :=
    Nat.lt_of_le_of_lt size (by rw [PartDir.maxFileBytes]; omega)
  let written := (partDir.set .zonemap []).set .zonemap (zoneMapBytes entries)
  have legal : FileName.Legal .zonemap := by decide
  refine ⟨written, zoneMapBytes entries, insertZones entries .empty, ?_, ?_, ?_, ?_, ?_, ?_⟩
  · rw [writeZoneMap, PartDir.create, if_pos legal, Outcome.ok_bind, PartDir.write, if_pos size]
  · exact PartDir.set_same _ _ _
  · rw [readZoneMap, PartDir.read_of_some (PartDir.set_same _ _ _), Outcome.ok_bind,
      parseZoneMap_zoneMapBytes short fits, Nat.mod_eq_of_lt few, List.take_length]
  · exact fun e member => insertZones_get_of_mem distinct member _
  · exact fun name absent => insertZones_get_of_absent absent _
  · intro torn begins strict
    obtain ⟨e, refused⟩ := parseZoneMap_torn few short fits begins strict
    refine ⟨e, ?_⟩
    rw [readZoneMap, PartDir.read_of_some (PartDir.set_same _ _ _), Outcome.ok_bind, refused]

/-- The bounds of two columns. -/
def twoZones : List EncodedZoneMapEntry :=
  [⟨"a", 4, ⟨leBytes 8 1, leBytes 8 5, leBytes_length 8 1, leBytes_length 8 5⟩⟩,
    ⟨"ab", 8, ⟨leBytes 8 2, leBytes 8 9, leBytes_length 8 2, leBytes_length 8 9⟩⟩]

theorem readZoneMap_whole_or_torn_two :
    ∃ written file zones, writeZoneMap .empty twoZones = .ok written ∧
      written .zonemap = some file ∧ readZoneMap written = .ok zones ∧
      (∀ e ∈ twoZones, zones.get e.colName = some ⟨e.typeTag, [e.entry]⟩) ∧
      (∀ name, (∀ e ∈ twoZones, e.colName ≠ name) → zones.get name = none) ∧
      ∀ torn, torn <+: file → torn ≠ file →
        ∃ e, readZoneMap (written.set .zonemap torn) = .err e :=
  readZoneMap_whole_or_torn (by decide) (by decide) (by decide) .empty

end TinyOlap.Storage
