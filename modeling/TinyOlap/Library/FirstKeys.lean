import TinyOlap.Library.Grouping

/-!
# The first keys of several lists

Every list is cut after its first distinct keys, so many of each, and the keys that are left are
put together (`cutKeys`). If these are not more than the limit, no list has lost a key that another
one has kept (`mem_firstKeys_iff`), and there are as many as all lists have, up to the limit
(`length_cutKeys`). Otherwise the lists can be divided in two, one after the other, so that both
parts together keep more keys than the limit as well (`exists_halves`).
-/

set_option autoImplicit false

namespace TinyOlap.Library

section FirstKeys

variable {κ : Type} [BEq κ] {limit : Nat}

/-- The first distinct keys, up to a limit. -/
def firstKeys (limit : Nat) (keys : List κ) : List κ := keys.eraseDups.take limit

/-- The keys that are left of several lists, once each. -/
def cutKeys (limit : Nat) (lists : List (List κ)) : List κ :=
  (lists.flatMap (firstKeys limit)).eraseDups

theorem length_firstKeys (limit : Nat) (keys : List κ) :
    (firstKeys limit keys).length = min limit keys.eraseDups.length := List.length_take

theorem cutKeys_zero (lists : List (List κ)) : cutKeys 0 lists = [] := by
  have none : lists.flatMap (firstKeys 0) = [] :=
    List.flatMap_eq_nil_iff.mpr fun keys _ => List.take_zero
  rw [cutKeys, none]
  rfl

variable [LawfulBEq κ] {keys more : List κ} {lists shares : List (List κ)} {k : κ}

/-! ## One list -/

theorem nodup_firstKeys (limit : Nat) (keys : List κ) : (firstKeys limit keys).Nodup :=
  (nodup_eraseDups keys).sublist (List.take_sublist _ _)

theorem mem_of_mem_firstKeys (first : k ∈ firstKeys limit keys) : k ∈ keys :=
  List.mem_eraseDups.mp (List.mem_of_mem_take first)

theorem firstKeys_subset_append : firstKeys limit keys ⊆ firstKeys limit (keys ++ more) := by
  obtain ⟨rest, split⟩ := eraseDups_prefix_append keys more
  rw [firstKeys, firstKeys, ← split, List.take_append]
  exact List.subset_append_left _ _

/-- Of the distinct keys only the first are kept. -/
theorem filter_firstKeys (limit : Nat) (keys : List κ) :
    (keys.eraseDups.filter fun k => decide (k ∈ firstKeys limit keys)) = firstKeys limit keys := by
  have distinct := nodup_eraseDups keys
  rw [firstKeys]
  generalize keys.eraseDups = all at distinct ⊢
  rw [← List.take_append_drop limit all, List.nodup_append] at distinct
  conv_lhs => rw [← List.take_append_drop limit all]
  rw [List.filter_append, List.take_append_drop, List.filter_eq_self.mpr (by simp),
    List.filter_eq_nil_iff.mpr, List.append_nil]
  intro k later
  simpa using fun first => distinct.2.2 k first k later rfl

/-- A key that comes first in two lists comes first in one of them. -/
theorem mem_firstKeys_append (first : k ∈ firstKeys limit (keys ++ more)) :
    k ∈ firstKeys limit keys ∨ k ∈ firstKeys limit more := by
  rw [firstKeys, eraseDups_append_filter, List.take_append, List.mem_append] at first
  refine first.imp id fun later => ?_
  have new := List.mem_of_mem_take later
  obtain ⟨before, after, split⟩ := List.append_of_mem (List.mem_filter.mp new).1
  have distinct := nodup_eraseDups more
  rw [split, List.nodup_middle, List.nodup_cons, List.mem_append, not_or] at distinct
  -- what is left out before the key is in the first list
  have early : (before.filter fun k => !keys.elem k).length < limit - keys.eraseDups.length := by
    have absent : k ∉ before.filter fun k => !keys.elem k := fun inside =>
      distinct.1.1 (List.mem_filter.mp inside).1
    have kept : (!keys.elem k) = true := (List.mem_filter.mp new).2
    rw [List.mem_take_iff_idxOf_lt new, split, List.filter_append,
      List.filter_cons_of_pos (p := fun k => !keys.elem k) kept,
      List.idxOf_append_of_notMem absent, List.idxOf_cons_self] at later
    exact later
  have left : (before.filter fun k => !!keys.elem k).length ≤ keys.eraseDups.length := by
    refine ((distinct.2.sublist (List.sublist_append_left _ _)).filter _ |>.subperm
      fun k inside => ?_).length_le
    simpa using (List.mem_filter.mp inside).2
  have total := List.length_eq_length_filter_add (l := before) fun k => !keys.elem k
  rw [firstKeys, List.mem_take_iff_idxOf_lt (split ▸ List.mem_append_right _ List.mem_cons_self),
    split, List.idxOf_append_of_notMem distinct.1.1, List.idxOf_cons_self]
  omega

/-! ## Several lists -/

theorem mem_cutKeys : k ∈ cutKeys limit lists ↔ ∃ keys ∈ lists, k ∈ firstKeys limit keys := by
  rw [cutKeys, List.mem_eraseDups, List.mem_flatMap]

theorem firstKeys_subset_cutKeys (member : keys ∈ lists) :
    firstKeys limit keys ⊆ cutKeys limit lists :=
  fun _ first => mem_cutKeys.mpr ⟨keys, member, first⟩

/-- The first keys of all lists are among the first keys of each. -/
theorem firstKeys_flatten_subset : firstKeys limit lists.flatten ⊆ cutKeys limit lists := by
  intro k first
  induction lists with
  | nil => cases mem_of_mem_firstKeys first
  | cons keys rest ih =>
      rw [List.flatten_cons] at first
      rcases mem_firstKeys_append first with here | later
      · exact firstKeys_subset_cutKeys List.mem_cons_self here
      · obtain ⟨other, member, inside⟩ := mem_cutKeys.mp (ih later)
        exact mem_cutKeys.mpr ⟨other, List.mem_cons_of_mem _ member, inside⟩

/-- Lists that are put together before they are cut do not keep more keys. -/
theorem length_cutKeys_le
    (together : ∀ keys ∈ shares, ∃ parts, parts ⊆ lists ∧ keys = parts.flatten) :
    (cutKeys limit shares).length ≤ (cutKeys limit lists).length := by
  refine ((nodup_eraseDups _).subperm fun k kept => ?_).length_le
  obtain ⟨keys, member, first⟩ := mem_cutKeys.mp kept
  obtain ⟨parts, inside, rfl⟩ := together keys member
  obtain ⟨part, listed, here⟩ := mem_cutKeys.mp (firstKeys_flatten_subset first)
  exact mem_cutKeys.mpr ⟨part, inside listed, here⟩

theorem length_cutKeys_le_of_subset (inside : shares ⊆ lists) :
    (cutKeys limit shares).length ≤ (cutKeys limit lists).length :=
  length_cutKeys_le fun keys member => ⟨[keys], by simpa using inside member, by simp⟩

/-- One list keeps its first keys. -/
theorem length_cutKeys_singleton_le (limit : Nat) (keys : List κ) :
    (cutKeys limit [keys]).length ≤ limit := by
  have kept := length_firstKeys limit keys
  have part : (cutKeys limit [keys]).Subperm (firstKeys limit keys) :=
    (nodup_eraseDups _).subperm fun k kept => by simpa using mem_cutKeys.mp kept
  exact Nat.le_trans part.length_le (kept ▸ Nat.min_le_left _ _)

/-- **No key is lost that is kept elsewhere**, if not more keys are kept than the limit. -/
theorem mem_firstKeys_iff (few : (cutKeys limit lists).length ≤ limit) (member : keys ∈ lists) :
    k ∈ firstKeys limit keys ↔ k ∈ keys ∧ k ∈ cutKeys limit lists := by
  constructor
  · exact fun first => ⟨mem_of_mem_firstKeys first, firstKeys_subset_cutKeys member first⟩
  · rintro ⟨inside, kept⟩
    by_cases short : keys.eraseDups.length ≤ limit
    · rw [firstKeys, List.take_of_length_le short]
      exact List.mem_eraseDups.mpr inside
    · have part := (nodup_firstKeys limit keys).subperm (firstKeys_subset_cutKeys member)
      refine (part.perm_of_length_le ?_).mem_iff.mpr kept
      rw [length_firstKeys]
      omega

/-- **As many keys are kept as there are**, up to the limit, if these are not more. -/
theorem length_cutKeys (few : (cutKeys limit lists).length ≤ limit) :
    (cutKeys limit lists).length = min limit lists.flatten.eraseDups.length := by
  have known : (cutKeys limit lists).length ≤ lists.flatten.eraseDups.length := by
    refine ((nodup_eraseDups _).subperm fun k kept => ?_).length_le
    obtain ⟨keys, member, first⟩ := mem_cutKeys.mp kept
    exact List.mem_eraseDups.mpr (List.mem_flatten.mpr ⟨keys, member, mem_of_mem_firstKeys first⟩)
  refine Nat.le_antisymm (Nat.le_min.mpr ⟨few, known⟩) ?_
  have first := ((nodup_firstKeys limit lists.flatten).subperm firstKeys_flatten_subset).length_le
  rwa [length_firstKeys] at first

/-- **More keys than the limit are kept of two parts as well**, the beginning of the lists and the
rest. -/
theorem exists_halves (many : limit < (cutKeys limit lists).length) :
    ∃ before after, lists = before ++ after ∧
      limit < (cutKeys limit [before.flatten, after.flatten]).length := by
  suffices onwards : ∀ after before : List (List κ), (cutKeys limit before).length ≤ limit →
      limit < (cutKeys limit (before ++ after)).length → ∃ first second,
        before ++ after = first ++ second ∧
          limit < (cutKeys limit [first.flatten, second.flatten]).length from
    onwards lists [] (Nat.zero_le _) many
  intro after
  induction after with
  | nil =>
      intro before few many
      rw [List.append_nil] at many
      exact absurd few (Nat.not_le.mpr many)
  | cons keys rest ih =>
      intro before few many
      by_cases more : (cutKeys limit (before ++ [keys])).length ≤ limit
      · rw [List.append_cons] at many ⊢
        exact ih _ more many
      · refine ⟨before, keys :: rest, rfl, Nat.lt_of_lt_of_le (Nat.not_le.mp more) ?_⟩
        -- the lists before have not lost a key by being put together
        have part := (nodup_firstKeys limit before.flatten).subperm firstKeys_flatten_subset
        have same := part.perm_of_length_le
          (Nat.le_of_eq ((length_cutKeys few).trans (length_firstKeys _ _).symm))
        refine ((nodup_eraseDups _).subperm fun k kept => ?_).length_le
        obtain ⟨list, member, first⟩ := mem_cutKeys.mp kept
        rcases List.mem_append.mp member with early | here
        · exact mem_cutKeys.mpr ⟨before.flatten, by simp,
            same.mem_iff.mpr (mem_cutKeys.mpr ⟨list, early, first⟩)⟩
        · rw [List.mem_singleton.mp here] at first
          exact mem_cutKeys.mpr ⟨(keys :: rest).flatten, by simp, firstKeys_subset_append first⟩

end FirstKeys

end TinyOlap.Library
