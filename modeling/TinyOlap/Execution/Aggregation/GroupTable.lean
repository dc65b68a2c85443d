import TinyOlap.Execution.Aggregation.Aggregate
import TinyOlap.Library.Grouping

/-!
# The table of groups

As long as there are at most `2 ^ 32` groups, the table of an aggregation lists the distinct
keys of the rows in the order in which they first appear, with their positions
(`assignGroups_eq`). At the end the keys are found in this order (`ordered_zipIdx`) and are
converted back into the columns they come from (`convertRows_eq_some`).

The table is a hash table that is probed with hashes computed beforehand. What a probe finds
or inserts is what a lookup by key does, however often the table grows
(`RowHashing.Models.probeAll`).
-/

set_option autoImplicit false

namespace TinyOlap.Execution

open Library Catalog Arrow

/-! ## The table -/

/-- The number of group indices. -/
def maxGroups : Nat := 2 ^ 32

theorem lookup_zipIdx {keys : List GroupKey} {k : GroupKey} (known : k ∈ keys) (n : Nat) :
    (keys.zipIdx n).lookup k = some (n + keys.idxOf k) := by
  induction keys generalizing n with
  | nil => cases known
  | cons key rest ih =>
      rw [List.zipIdx_cons, List.lookup_cons]
      by_cases here : k = key
      · subst here
        simp
      · have later : k ∈ rest := (List.mem_cons.mp known).resolve_left here
        rw [beq_eq_false_iff_ne.mpr here, List.idxOf_cons_ne _ (Ne.symm here), ih later]
        rw [Nat.add_assoc, Nat.add_comm 1]

theorem lookup_zipIdx_of_not_mem {keys : List GroupKey} {k : GroupKey} (new : k ∉ keys) :
    keys.zipIdx.lookup k = none := by
  rw [List.lookup_eq_none_iff]
  intro entry member
  rw [bne_iff_ne]
  rintro rfl
  obtain ⟨_, _, same⟩ := List.mem_zipIdx member
  exact new (same ▸ List.getElem_mem _)

/-- A key gets the position at which it is listed. -/
theorem groupIndex_eq {seen : List GroupKey} {k : GroupKey}
    (few : (seen ++ [k]).eraseDups.length ≤ maxGroups) :
    groupIndex seen.eraseDups.zipIdx k =
      ((seen ++ [k]).eraseDups.zipIdx, (seen ++ [k]).eraseDups.idxOf k) := by
  unfold groupIndex
  by_cases known : k ∈ seen
  · have listed : k ∈ seen.eraseDups := List.mem_eraseDups.mpr known
    rw [lookup_zipIdx listed, eraseDups_concat_of_mem known, Nat.zero_add]
  · have unlisted : k ∉ seen.eraseDups := mt List.mem_eraseDups.mp known
    rw [eraseDups_concat_of_not_mem known, List.length_append, List.length_singleton] at few
    have next : seen.eraseDups.zipIdx.length % 2 ^ 32 = seen.eraseDups.length := by
      rw [List.length_zipIdx]
      exact Nat.mod_eq_of_lt (by rw [maxGroups] at few; omega)
    rw [lookup_zipIdx_of_not_mem unlisted, eraseDups_concat_of_not_mem known]
    simp only [next, List.zipIdx_append, List.zipIdx_singleton, Nat.zero_add,
      List.idxOf_append_of_notMem unlisted, List.idxOf_cons_self, Nat.add_zero]

/-- **The indices of rows are the positions of their keys**, and the table lists all keys. -/
theorem assignGroups_eq {seen keys : List GroupKey}
    (few : (seen ++ keys).eraseDups.length ≤ maxGroups) :
    assignGroups seen.eraseDups.zipIdx keys =
      ((seen ++ keys).eraseDups.zipIdx, keys.map fun k => (seen ++ keys).eraseDups.idxOf k) := by
  induction keys generalizing seen with
  | nil => simp [assignGroups]
  | cons k rest ih =>
      rw [List.append_cons] at few
      have less := (eraseDups_prefix_append (seen ++ [k]) rest).length_le
      have first := @groupIndex_eq seen k (less.trans few)
      have listed : k ∈ seen ++ [k] := by simp
      rw [assignGroups, first]
      simp only [ih few, List.append_cons seen k rest, List.map_cons,
        idxOf_eraseDups_append listed]

/-! ## The group columns of the output -/

theorem find?_zipIdx {keys : List GroupKey} {idx : Nat} (inside : idx < keys.length) :
    (keys.zipIdx.find? fun entry => entry.2 = idx).map Prod.fst = keys[idx]? := by
  have found : keys.zipIdx.find? (fun entry => entry.2 = idx) = some (keys[idx], idx) := by
    refine List.find?_eq_some_iff_getElem.mpr ⟨by simp, idx, by simpa using inside, by simp, ?_⟩
    intro j before
    simpa using before.ne
  rw [found, List.getElem?_eq_getElem inside]
  rfl

/-- The keys are found in the order of their indices. -/
theorem ordered_zipIdx (keys : List GroupKey) :
    ((List.range keys.length).mapM fun idx =>
      (.orPanic ((keys.zipIdx.find? fun entry => entry.2 = idx).map Prod.fst) :
        ExecResult GroupKey)) = .ok keys := by
  have each : ∀ idx ∈ List.range keys.length,
      (.orPanic ((keys.zipIdx.find? fun entry => entry.2 = idx).map Prod.fst) :
        ExecResult GroupKey) = .ok ((keys[idx]?).getD []) := by
    intro idx member
    have inside := List.mem_range.mp member
    rw [find?_zipIdx inside, List.getElem?_eq_getElem inside]
    rfl
  rw [Outcome.mapM_ok each]
  congr 1
  refine List.ext_getElem (by simp) fun i left right => ?_
  simp [List.getElem?_eq_getElem right]

/-- The cells of the key have the types of the fields. -/
def KeyTyped (fields : List Field) (key : GroupKey) : Prop :=
  key.map Value.type = fields.map Field.dataType

/-- The first cells of the keys make a column. -/
theorem mapM_head {t : ArrowType} {keys : List GroupKey}
    (typed : ∀ key ∈ keys, key.head?.map Value.type = some t) :
    ∃ values : List t.Native, keys.mapM (fun key => key.head?.bind (cast t)) = some values ∧
      values.length = keys.length ∧
      List.zipWith List.cons (values.map (Value.mk t)) (keys.map List.tail) = keys := by
  induction keys with
  | nil => exact ⟨[], rfl, rfl, rfl⟩
  | cons key keys ih =>
      obtain ⟨values, converted, same, cells⟩ := ih fun later member =>
        typed later (by simp [member])
      have first := typed key (by simp)
      cases key with
      | nil => cases first
      | cons v rest =>
          obtain ⟨type, val⟩ := v
          obtain rfl : type = t := by simpa using first
          refine ⟨val :: values, ?_, by simp [same], by simp [cells]⟩
          rw [List.mapM_cons, converted]
          simp [cast]

/-- **Keys survive the conversion into columns.** -/
theorem convertRows_eq_some {fields : List Field} {keys : List GroupKey}
    (typed : ∀ key ∈ keys, KeyTyped fields key) :
    ∃ arrays, convertRows fields keys = some arrays ∧
      arrays.map ArrayRef.type = fields.map Field.dataType ∧
      (∀ a ∈ arrays, a.length = keys.length) ∧
      RecordBatch.rowsOf keys.length arrays = keys := by
  induction fields generalizing keys with
  | nil =>
      refine ⟨[], rfl, rfl, by simp, ?_⟩
      refine (List.eq_replicate_iff.mpr ⟨rfl, fun key member => ?_⟩).symm
      simpa [KeyTyped] using typed key member
  | cons f fields ih =>
      obtain ⟨values, converted, same, cells⟩ := @mapM_head f.dataType keys (by
        intro key member
        have types := typed key member
        cases key with
        | nil => simp [KeyTyped] at types
        | cons v rest => simpa [KeyTyped] using (List.cons.inj types).1)
      obtain ⟨arrays, rest, types, lengths, rows⟩ := @ih (keys.map List.tail) (by
        intro key member
        obtain ⟨key', inside, rfl⟩ := List.mem_map.mp member
        have types := typed key' inside
        cases key' with
        | nil => simp [KeyTyped] at types
        | cons v rest => exact (List.cons.inj types).2)
      rw [List.length_map] at lengths rows
      refine ⟨⟨f.dataType, values⟩ :: arrays, ?_, by rw [List.map_cons, List.map_cons, types],
        ?_, ?_⟩
      · simp only [convertRows, converted, rest, Option.bind_eq_bind, Option.bind_some]
      · intro a member
        rcases List.mem_cons.mp member with rfl | later
        · exact same
        · exact lengths a later
      · rw [RecordBatch.rowsOf, rows]
        exact cells

/-! ## The hash table -/

/-- How keys are hashed. A row is hashed by its bytes, before it is looked up; when the table
grows, the owned keys in it are hashed again. -/
structure RowHashing where
  bytes : GroupKey → Bytes
  hashOne : Bytes → Nat
  hashOwned : GroupKey → Nat
  injective : Function.Injective bytes
  agree : ∀ key, hashOwned key = hashOne (bytes key)

/-- An entry of the hash table, with the hash under which it is stored. -/
structure RawEntry where
  hash : Nat
  key : GroupKey
  idx : Nat

namespace RowHashing

variable (h : RowHashing)

/-- `raw_entry_mut().from_hash`: an entry that is stored under the hash and has the bytes. -/
def fromHash (table : List RawEntry) (key : GroupKey) : Option Nat :=
  (table.find? fun entry => entry.hash = h.hashOne (h.bytes key) ∧
    h.bytes entry.key = h.bytes key).map RawEntry.idx

/-- Growing stores every entry under the hash of its owned key. -/
def rehash (table : List RawEntry) : List RawEntry :=
  table.map fun entry => { entry with hash := h.hashOwned entry.key }

/-- Look a row up, and insert it with `insert_hashed_nocheck` if it is not there. The table
may grow on that occasion. -/
def probe (grows : List RawEntry → Bool) (table : List RawEntry) (key : GroupKey) :
    List RawEntry × Nat :=
  let nextIdx := table.length % 2 ^ 32
  match h.fromHash table key with
  | some idx => (table, idx)
  | none =>
      ((if grows table then h.rehash table else table) ++
        [⟨h.hashOne (h.bytes key), key, nextIdx⟩], nextIdx)

/-- Probe all rows. -/
def probeAll (grows : List RawEntry → Bool) (table : List RawEntry) :
    List GroupKey → List RawEntry × List Nat
  | [] => (table, [])
  | key :: rest =>
      let (table, idx) := h.probe grows table key
      let (table, idxs) := probeAll grows table rest
      (table, idx :: idxs)

/-- A hash table has the groups, each stored under its hash. -/
structure Models (table : List RawEntry) (groups : GroupTable) : Prop where
  entries : table.map (fun entry => (entry.key, entry.idx)) = groups
  hashed : ∀ entry ∈ table, entry.hash = h.hashOne (h.bytes entry.key)

variable {h} {table : List RawEntry} {groups : GroupTable}

theorem Models.lookup (models : h.Models table groups) (key : GroupKey) :
    groups.lookup key = h.fromHash table key := by
  obtain ⟨rfl, hashed⟩ := models
  induction table with
  | nil => rfl
  | cons entry rest ih =>
      have later := ih fun e member => hashed e (by simp [member])
      have stored := hashed entry (by simp)
      rw [List.map_cons, List.lookup_cons, fromHash, List.find?_cons]
      by_cases here : key = entry.key
      · subst here
        simp [stored]
      · have other : h.bytes entry.key ≠ h.bytes key := fun same => here (h.injective same).symm
        rw [beq_eq_false_iff_ne.mpr here]
        simpa [fromHash, other] using later

/-- **A probe finds or inserts what a lookup by key does**, whether the table grows or not. -/
theorem Models.probe (models : h.Models table groups) (grows : List RawEntry → Bool)
    (key : GroupKey) :
    (h.probe grows table key).2 = (groupIndex groups key).2 ∧
      h.Models (h.probe grows table key).1 (groupIndex groups key).1 := by
  have length : table.length = groups.length := by rw [← models.entries, List.length_map]
  unfold RowHashing.probe groupIndex
  rw [models.lookup key, length]
  cases h.fromHash table key with
  | some idx => exact ⟨rfl, models⟩
  | none =>
      refine ⟨rfl, ?_, ?_⟩
      · rw [← models.entries]
        cases grows table <;> simp [rehash]
      · intro entry member
        rcases List.mem_append.mp member with old | new
        · split at old
          · obtain ⟨before, _, rfl⟩ := List.mem_map.mp old
            exact h.agree before.key
          · exact models.hashed entry old
        · rw [List.mem_singleton.mp new]

theorem Models.probeAll (models : h.Models table groups) (grows : List RawEntry → Bool)
    (keys : List GroupKey) :
    (h.probeAll grows table keys).2 = (assignGroups groups keys).2 ∧
      h.Models (h.probeAll grows table keys).1 (assignGroups groups keys).1 := by
  induction keys generalizing table groups with
  | nil => exact ⟨rfl, models⟩
  | cons key rest ih =>
      obtain ⟨idx, models'⟩ := models.probe grows key
      obtain ⟨idxs, models''⟩ := ih models'
      refine ⟨?_, models''⟩
      simp only [RowHashing.probeAll, assignGroups, idx, idxs]

end RowHashing

end TinyOlap.Execution
