import Mathlib.Data.List.Nodup
import Mathlib.Data.List.Perm.Subperm

/-!
# Groups

Rows that carry a key fall into groups. The keys are listed in the order in which they
first appear (`List.eraseDups`): a list that goes on only adds keys at the end, so a key
keeps its position (`idxOf_eraseDups_append`). A group has the entries of its rows, in
order (`entriesOf`).

Rows may be grouped part by part first. A tally lists each key of a part once, with the
entries of its group. Adding its keys is adding those of the part
(`eraseDups_append_eraseDups`), and it has the entries of the part
(`flatten_entriesOf_tally`).
-/

set_option autoImplicit false

namespace TinyOlap.Library

/-! ## Distinct keys -/

section Distinct

variable {κ : Type} [BEq κ] [LawfulBEq κ]

theorem nodup_eraseDups (keys : List κ) : keys.eraseDups.Nodup := by
  induction hn : keys.length using Nat.strongRecOn generalizing keys with
  | ind n ih =>
      cases keys with
      | nil => simp
      | cons k rest =>
          have shorter : (rest.filter fun b => !b == k).length < n := by
            rw [← hn, List.length_cons]
            exact Nat.lt_succ_of_le (List.length_filter_le _ _)
          rw [List.eraseDups_cons, List.nodup_cons]
          exact ⟨by simp, ih _ shorter _ rfl⟩

theorem length_eraseDups_le (keys : List κ) : keys.eraseDups.length ≤ keys.length :=
  (List.Nodup.subperm (nodup_eraseDups keys) fun _ member => List.mem_eraseDups.mp member).length_le

theorem eraseDups_filter (p : κ → Bool) (keys : List κ) :
    (keys.filter p).eraseDups = keys.eraseDups.filter p := by
  induction hn : keys.length using Nat.strongRecOn generalizing keys with
  | ind n ih =>
      cases keys with
      | nil => simp
      | cons k rest =>
          have shorter : (rest.filter fun b => !b == k).length < n := by
            rw [← hn, List.length_cons]
            exact Nat.lt_succ_of_le (List.length_filter_le _ _)
          have swapped : (rest.filter p).filter (fun b => !b == k) =
              (rest.filter fun b => !b == k).filter p := by
            simp only [List.filter_filter, Bool.and_comm]
          rw [List.eraseDups_cons, List.filter_cons, List.filter_cons]
          split
          · rw [List.eraseDups_cons, swapped, ih _ shorter _ rfl]
          · rename_i fails
            have never : (rest.filter p).filter (fun b => !b == k) = rest.filter p := by
              refine List.filter_eq_self.mpr fun b member => ?_
              have passes := (List.mem_filter.mp member).2
              simp only [Bool.not_eq_true', beq_eq_false_iff_ne]
              rintro rfl
              exact fails passes
            rw [← ih _ shorter _ rfl, ← swapped, never]

/-- Keys that are there already are not listed again. -/
theorem eraseDups_append_filter (keys more : List κ) :
    (keys ++ more).eraseDups =
      keys.eraseDups ++ more.eraseDups.filter fun k => !keys.elem k := by
  rw [List.eraseDups_append, ← eraseDups_filter]
  rfl

theorem eraseDups_prefix_append (keys more : List κ) :
    keys.eraseDups <+: (keys ++ more).eraseDups :=
  ⟨_, (eraseDups_append_filter keys more).symm⟩

/-- **A key keeps its position.** -/
theorem idxOf_eraseDups_append {keys : List κ} {k : κ} (known : k ∈ keys) (more : List κ) :
    (keys ++ more).eraseDups.idxOf k = keys.eraseDups.idxOf k :=
  ((eraseDups_prefix_append keys more).idxOf_eq_of_mem (List.mem_eraseDups.mpr known)).symm

theorem eraseDups_concat_of_mem {keys : List κ} {k : κ} (known : k ∈ keys) :
    (keys ++ [k]).eraseDups = keys.eraseDups := by
  rw [eraseDups_append_filter]
  simp [known]

theorem eraseDups_concat_of_not_mem {keys : List κ} {k : κ} (new : k ∉ keys) :
    (keys ++ [k]).eraseDups = keys.eraseDups ++ [k] := by
  rw [eraseDups_append_filter, List.eraseDups_cons]
  simp [new]

theorem eraseDups_eraseDups (keys : List κ) : keys.eraseDups.eraseDups = keys.eraseDups := by
  have all : ∀ l : List κ, l.Nodup → l.eraseDups = l := by
    intro l distinct
    induction l with
    | nil => rfl
    | cons k rest ih =>
        rw [List.nodup_cons] at distinct
        rw [List.eraseDups_cons, List.filter_eq_self.mpr, ih distinct.2]
        intro b member
        simp only [Bool.not_eq_true', beq_eq_false_iff_ne]
        rintro rfl
        exact distinct.1 member
  exact all _ (nodup_eraseDups keys)

/-- One key, however often. -/
theorem eraseDups_of_all {keys : List κ} {k : κ} (some : keys ≠ []) (all : ∀ j ∈ keys, j = k) :
    keys.eraseDups = [k] := by
  cases keys with
  | nil => exact (some rfl).elim
  | cons j rest =>
      obtain rfl := all j (by simp)
      rw [List.eraseDups_cons, List.filter_eq_nil_iff.mpr]
      · rfl
      · intro i member
        simp [all i (by simp [member])]

/-- Keys may be listed once each before they are added. -/
theorem eraseDups_append_eraseDups (keys more : List κ) :
    (keys ++ more.eraseDups).eraseDups = (keys ++ more).eraseDups := by
  rw [eraseDups_append_filter, eraseDups_append_filter, eraseDups_eraseDups]

end Distinct

/-! ## The entries of a group -/

section Entries

variable {κ β : Type} [DecidableEq κ]

/-- The entries of the rows with the key. -/
def entriesOf (rows : List (κ × β)) (k : κ) : List β :=
  rows.filterMap fun row => if row.1 = k then some row.2 else none

@[simp] theorem entriesOf_nil (k : κ) : entriesOf ([] : List (κ × β)) k = [] := rfl

@[simp] theorem entriesOf_append (rows more : List (κ × β)) (k : κ) :
    entriesOf (rows ++ more) k = entriesOf rows k ++ entriesOf more k :=
  List.filterMap_append

theorem entriesOf_cons (row : κ × β) (rows : List (κ × β)) (k : κ) :
    entriesOf (row :: rows) k =
      if row.1 = k then row.2 :: entriesOf rows k else entriesOf rows k := by
  rw [entriesOf, List.filterMap_cons]
  by_cases here : row.1 = k <;> simp [here, entriesOf]

theorem mem_entriesOf {rows : List (κ × β)} {k : κ} {b : β} :
    b ∈ entriesOf rows k ↔ (k, b) ∈ rows := by
  simp only [entriesOf, List.mem_filterMap, Option.ite_none_right_eq_some, Option.some.injEq]
  constructor
  · rintro ⟨row, member, rfl, rfl⟩
    exact member
  · intro member
    exact ⟨(k, b), member, rfl, rfl⟩

/-- A group has an entry exactly if its key appears. -/
theorem entriesOf_eq_nil_iff {rows : List (κ × β)} {k : κ} :
    entriesOf rows k = [] ↔ k ∉ rows.map Prod.fst := by
  rw [List.eq_nil_iff_forall_not_mem]
  simp only [mem_entriesOf, List.mem_map, Prod.exists, exists_and_right, exists_eq_right,
    not_exists]

/-- The entries of items with a key each. -/
theorem entriesOf_map_pair {α : Type} (key : α → κ) (value : α → β) (items : List α) (k : κ) :
    entriesOf (items.map fun item => (key item, value item)) k =
      (items.filter fun item => key item = k).map value := by
  induction items with
  | nil => rfl
  | cons item rest ih =>
      rw [List.map_cons, entriesOf_cons, ih]
      by_cases here : key item = k <;> simp [here]

/-- A group has as many entries as rows have its key. -/
theorem length_entriesOf (rows : List (κ × β)) (k : κ) :
    (entriesOf rows k).length = (rows.map Prod.fst).count k := by
  induction rows with
  | nil => rfl
  | cons row rows ih =>
      rw [entriesOf_cons, List.map_cons, List.count_cons]
      by_cases here : row.1 = k <;> simp [here, ih]

/-- All rows have the same key. -/
theorem entriesOf_of_all {rows : List (κ × β)} {k : κ} (all : ∀ row ∈ rows, row.1 = k) :
    entriesOf rows k = rows.map Prod.snd := by
  rw [entriesOf, ← List.filterMap_eq_map]
  exact List.filterMap_congr fun row member => by simp [all row member]

theorem entriesOf_map {γ : Type} (f : β → γ) (rows : List (κ × β)) (k : κ) :
    entriesOf (rows.map fun row => (row.1, f row.2)) k = (entriesOf rows k).map f := by
  rw [entriesOf, entriesOf, List.filterMap_map, List.map_filterMap]
  refine List.filterMap_congr fun row _ => ?_
  by_cases here : row.1 = k <;> simp [here]

theorem entriesOf_zip_map {γ : Type} (f : β → γ) (keys : List κ) (entries : List β) (k : κ) :
    entriesOf (keys.zip (entries.map f)) k = (entriesOf (keys.zip entries) k).map f := by
  rw [List.zip_map_right, ← entriesOf_map]
  rfl

/-- How many entries a group has depends on the keys only. -/
theorem length_entriesOf_zip {γ : Type} {keys : List κ} {bs : List β} {cs : List γ}
    (same : bs.length = keys.length) (same' : cs.length = keys.length) (k : κ) :
    (entriesOf (keys.zip bs) k).length = (entriesOf (keys.zip cs) k).length := by
  rw [length_entriesOf, length_entriesOf, List.map_fst_zip (Nat.le_of_eq same.symm),
    List.map_fst_zip (Nat.le_of_eq same'.symm)]

/-- The order of the rows is that of the entries. -/
theorem entriesOf_perm {rows rows' : List (κ × β)} (same : rows.Perm rows') (k : κ) :
    (entriesOf rows k).Perm (entriesOf rows' k) :=
  same.filterMap _

end Entries

/-! ## Tallies -/

section Tally

variable {κ β : Type} [DecidableEq κ] [BEq κ]

/-- Each key once, with the entries of its group. -/
def tally (rows : List (κ × β)) : List (κ × List β) :=
  (rows.map Prod.fst).eraseDups.map fun k => (k, entriesOf rows k)

theorem keys_tally (rows : List (κ × β)) :
    (tally rows).map Prod.fst = (rows.map Prod.fst).eraseDups := by
  rw [tally, List.map_map]
  exact List.map_id _

variable [LawfulBEq κ]

/-- **The entries of a tally are those of the rows.** -/
theorem flatten_entriesOf_tally (rows : List (κ × β)) (k : κ) :
    (entriesOf (tally rows) k).flatten = entriesOf rows k := by
  have distinct := nodup_eraseDups (rows.map Prod.fst)
  by_cases known : k ∈ (rows.map Prod.fst).eraseDups
  · obtain ⟨before, after, split⟩ := List.append_of_mem known
    rw [split, List.nodup_middle, List.nodup_cons, List.mem_append, not_or] at distinct
    have absent : ∀ keys : List κ, k ∉ keys →
        entriesOf (keys.map fun k => (k, entriesOf rows k)) k = [] := by
      intro keys missing
      rw [entriesOf_eq_nil_iff, List.map_map]
      simpa using missing
    rw [tally, split, List.map_append, List.map_cons, entriesOf_append, entriesOf_cons,
      absent before distinct.1.1, absent after distinct.1.2]
    simp
  · have never := known
    rw [List.mem_eraseDups] at never
    rw [entriesOf_eq_nil_iff.mpr never, entriesOf_eq_nil_iff.mpr (keys_tally rows ▸ known)]
    rfl

end Tally

end TinyOlap.Library
