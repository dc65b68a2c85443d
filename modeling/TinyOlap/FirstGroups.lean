import TinyOlap.AggregateAnswer
import TinyOlap.LimitLaw
import TinyOlap.Library.FirstKeys

/-!
# Rows of the first groups

Under a limit only those rows of a worker count whose group is one of the first that the worker
has met (`firstGroups`). If the workers keep no more groups than the limit, every group that is
kept is whole, and the answer of these rows is what the law of LIMIT demands
(`keepsLimit_of_cut`). Without GROUP BY there is one group, which is kept (`keepsLimit_whole`).
-/

set_option autoImplicit false

namespace TinyOlap

open Library Library.WorkPool Catalog Arrow Storage Frontend Physical Execution

variable {schema : TableSchema}

namespace AggregateQuery

variable (q : AggregateQuery schema)

/-- The keys of the matching rows, one for each. -/
def keysIn (rows : List NamedRow) : List GroupKey :=
  (q.matching rows).map (selectCells q.groupNames)

/-- The matching rows of the first groups. -/
def firstGroups (limit : Nat) (rows : List NamedRow) : List NamedRow :=
  (q.matching rows).filter fun row =>
    (firstKeys limit (q.keysIn rows)).contains (selectCells q.groupNames row)

/-- The rows of an answer, without the names of the columns. -/
def AnswerRows (rows : List NamedRow) (all : List (List Value)) : Prop :=
  ∃ keys : List GroupKey, keys.Perm (keysOfRows q.groupNames (q.matching rows)) ∧
    List.Forall₂ (fun key cells => List.Forall₂ (fun item v =>
      item.Describes (rowsOfGroup q.groupNames (q.matching rows) key) v) q.items cells) keys all

variable {q} {limit : Nat} {rows : List NamedRow} {shares : List (List NamedRow)}
  {out : RecordBatch}

theorem firstGroups_eq (limit : Nat) (rows : List NamedRow) :
    q.firstGroups limit rows = (q.matching rows).filter fun row =>
      decide (selectCells q.groupNames row ∈ firstKeys limit (q.keysIn rows)) := by
  simp only [firstGroups, List.contains_eq_mem]

theorem matching_matching (rows : List NamedRow) :
    q.matching (q.matching rows) = q.matching rows :=
  List.filter_eq_self.mpr fun _ member => (List.mem_filter.mp member).2

theorem matching_firstGroups (limit : Nat) (rows : List NamedRow) :
    q.matching (q.firstGroups limit rows) = q.firstGroups limit rows := by
  refine List.filter_eq_self.mpr fun row member => ?_
  exact (List.mem_filter.mp (List.mem_of_mem_filter member)).2

theorem matching_flatMap {α : Type} (f : α → List NamedRow) (l : List α) :
    q.matching (l.flatMap f) = l.flatMap fun a => q.matching (f a) := List.filter_flatMap ..

theorem flatten_keysIn (shares : List (List NamedRow)) :
    (shares.map q.keysIn).flatten = q.keysIn shares.flatten := by
  rw [← List.flatMap_def, ← List.flatMap_id, keysIn, matching_flatMap, List.map_flatMap]
  rfl

/-- The keys that are left of the shares. -/
theorem mem_keys_firstGroups {key : GroupKey} :
    key ∈ (shares.flatMap (q.firstGroups limit)).map (selectCells q.groupNames) ↔
      key ∈ cutKeys limit (shares.map q.keysIn) := by
  rw [mem_cutKeys]
  simp only [List.mem_map, List.mem_flatMap, firstGroups_eq, List.mem_filter, decide_eq_true_eq]
  constructor
  · rintro ⟨row, ⟨share, member, inside, first⟩, rfl⟩
    exact ⟨_, ⟨share, member, rfl⟩, first⟩
  · rintro ⟨_, ⟨share, member, rfl⟩, first⟩
    obtain ⟨row, inside, rfl⟩ := List.mem_map.mp (mem_of_mem_firstKeys first)
    exact ⟨row, ⟨share, member, inside, first⟩, rfl⟩

theorem keysOfRows_firstGroups (grouping : q.groupBy ≠ []) :
    (keysOfRows q.groupNames (shares.flatMap (q.firstGroups limit))).Perm
      (cutKeys limit (shares.map q.keysIn)) := by
  have named : q.groupNames ≠ [] := by simpa [groupNames] using grouping
  rw [keysOfRows, if_neg named]
  refine (List.perm_ext_iff_of_nodup (nodup_eraseDups _) (nodup_eraseDups _)).mpr fun key => ?_
  rw [List.mem_eraseDups]
  exact mem_keys_firstGroups

/-- **A group that is kept is whole**, if not more groups are kept than the limit. -/
theorem rowsOfGroup_firstGroups
    (few : (cutKeys limit (shares.map q.keysIn)).length ≤ limit) {key : GroupKey}
    (kept : key ∈ cutKeys limit (shares.map q.keysIn)) :
    rowsOfGroup q.groupNames (shares.flatMap (q.firstGroups limit)) key =
      rowsOfGroup q.groupNames (q.matching shares.flatten) key := by
  rw [rowsOfGroup, rowsOfGroup, ← List.flatMap_id, matching_flatMap, List.filter_flatMap,
    List.filter_flatMap]
  refine List.flatMap_congr fun share member => ?_
  rw [firstGroups_eq, List.filter_filter]
  refine List.filter_congr fun row inside => ?_
  by_cases here : selectCells q.groupNames row = key
  · have first : key ∈ firstKeys limit (q.keysIn share) := by
      rw [mem_firstKeys_iff few (List.mem_map_of_mem member)]
      exact ⟨here ▸ List.mem_map_of_mem inside, kept⟩
    simp [here, first]
  · simp [here]

/-- How many rows are returned. -/
theorem length_rows_of_cut (grouping : q.groupBy ≠ [])
    (answer : q.IsAnswer (shares.flatMap (q.firstGroups limit)) out) :
    out.rows.length = (cutKeys limit (shares.map q.keysIn)).length := by
  obtain ⟨_, keys, each, described⟩ := answer
  rw [matching_flatMap, List.flatMap_congr fun share _ => matching_firstGroups limit share] at each
  rw [← described.length_eq, each.length_eq, (keysOfRows_firstGroups grouping).length_eq]

/-- **The law of LIMIT for groups**, if not more groups are kept than the limit. -/
theorem keepsLimit_of_cut (grouping : q.groupBy ≠ [])
    (few : (cutKeys limit (shares.map q.keysIn)).length ≤ limit)
    (answer : q.IsAnswer (shares.flatMap (q.firstGroups limit)) out)
    (all : shares.flatten.Perm rows) {full : RecordBatch} (whole : q.IsAnswer rows full) :
    ∃ all, q.AnswerRows rows all ∧ KeepsLimit limit all [out] := by
  have count := length_rows_of_cut grouping answer
  obtain ⟨_, keys, each, described⟩ := answer
  rw [matching_flatMap, List.flatMap_congr fun share _ => matching_firstGroups limit share]
    at each described
  have kept := each.trans (keysOfRows_firstGroups grouping)
  obtain ⟨_, allKeys, every, describes⟩ := whole
  have named : q.groupNames ≠ [] := by simpa [groupNames] using grouping
  have known : (q.keysIn shares.flatten).eraseDups.Perm
      (keysOfRows q.groupNames (q.matching rows)) := by
    refine .trans (.of_eq ?_) (keysOfRows_perm (all.filter _))
    rw [keysOfRows, if_neg named]
    rfl
  have distinct : allKeys.Nodup := every.nodup_iff.mpr (known.nodup_iff.mp (nodup_eraseDups _))
  -- the groups that are not returned, as in any answer
  let cut := cutKeys limit (shares.map q.keysIn)
  obtain ⟨rest, left⟩ : ∃ rest, List.Forall₂ (fun key cells => List.Forall₂ (fun item v =>
      item.Describes (rowsOfGroup q.groupNames (q.matching rows) key) v) q.items cells)
      (allKeys.filter fun key => !decide (key ∈ cut)) rest := by
    refine exists_forall₂ fun key member => ?_
    obtain ⟨cells, _, here⟩ := exists_of_mem_left describes (List.mem_of_mem_filter member)
    exact ⟨cells, here⟩
  have perm : (keys ++ allKeys.filter fun key => !decide (key ∈ cut)).Perm
      (keysOfRows q.groupNames (q.matching rows)) := by
    have first : keys.Perm (allKeys.filter fun key => decide (key ∈ cut)) := by
      refine kept.trans ((List.perm_ext_iff_of_nodup (nodup_eraseDups _)
        (distinct.filter _)).mpr fun key => ?_)
      rw [List.mem_filter, decide_eq_true_eq]
      refine ⟨fun inside => ⟨?_, inside⟩, And.right⟩
      obtain ⟨_, member, here⟩ := mem_cutKeys.mp inside
      refine every.mem_iff.mpr (known.mem_iff.mp (List.mem_eraseDups.mpr ?_))
      rw [← flatten_keysIn]
      exact List.mem_flatten.mpr ⟨_, member, mem_of_mem_firstKeys here⟩
    exact (first.append_right _).trans ((List.filter_append_perm _ _).trans every)
  have total : (out.rows ++ rest).length = (q.keysIn shares.flatten).eraseDups.length := by
    rw [known.length_eq, ← perm.length_eq, List.length_append, List.length_append,
      described.length_eq, left.length_eq]
  refine ⟨out.rows ++ rest, ⟨_, perm, List.rel_append ?_ left⟩, ?_, ?_⟩
  · refine ((List.forall₂_and_left _ _).mpr ⟨fun key member => kept.mem_iff.mp member,
      described⟩).imp ?_
    rintro key cells ⟨inside, items⟩
    rw [rowsOfGroup_firstGroups few inside] at items
    exact items.imp fun item v describes => describes.perm ((all.filter _).filter _)
  · rw [List.flatMap_singleton]
    exact (List.sublist_append_left _ _).subperm
  · rw [List.flatMap_singleton, count, length_cutKeys few, flatten_keysIn, total]

/-- **The law of LIMIT without GROUP BY**: there is one group, and it is whole. -/
theorem keepsLimit_whole (whole : q.groupBy = []) (positive : 0 < limit)
    (answer : q.IsAnswer (shares.flatMap (q.firstGroups limit)) out)
    (all : shares.flatten.Perm rows) :
    ∃ all, q.AnswerRows rows all ∧ KeepsLimit limit all [out] := by
  have named : q.groupNames = [] := by rw [groupNames, whole, List.map_nil]
  have first : ∀ rows, q.firstGroups limit rows = q.matching rows := by
    intro rows
    rw [firstGroups_eq]
    refine List.filter_eq_self.mpr fun row member => ?_
    have keys : (q.keysIn rows).eraseDups = [[]] := by
      refine eraseDups_of_all (List.ne_nil_of_mem (List.mem_map_of_mem member)) fun key inside => ?_
      obtain ⟨_, _, rfl⟩ := List.mem_map.mp inside
      rw [named]
      rfl
    rw [firstKeys, keys, named, List.take_of_length_le positive]
    simp [selectCells]
  have same : q.matching (shares.flatMap (q.firstGroups limit)) = q.matching shares.flatten := by
    rw [matching_flatMap, ← List.flatMap_id, matching_flatMap]
    exact List.flatMap_congr fun rows _ => by rw [first, matching_matching]; rfl
  have answer' : q.IsAnswer shares.flatten out := by
    rw [IsAnswer, same] at answer
    exact answer
  obtain ⟨fields, keys, each, described⟩ := answer'.perm all
  have one : out.rows.length = 1 := by
    rw [← described.length_eq, each.length_eq, keysOfRows, if_pos named]
    rfl
  refine ⟨out.rows, ⟨keys, each, described⟩, ?_, ?_⟩
  · rw [List.flatMap_singleton]
  · rw [List.flatMap_singleton, one]
    omega

end AggregateQuery

end TinyOlap
