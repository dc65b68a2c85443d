import Mathlib.Data.List.Basic
import Mathlib.Order.Lattice

/-!
# Running extrema

A pass over a list keeps the best value so far and replaces it by a strictly better
one. When better means a smaller key, what is kept at the end is one of the values and
has the smallest key of all.
-/

set_option autoImplicit false

namespace TinyOlap.Library

variable {α : Type}

/-- Keep the best value so far. -/
def track (better : α → α → Bool) (best : Option α) (v : α) : Option α :=
  match best with
  | none => some v
  | some m => some (if better v m then v else m)

section Key

variable {β : Type} [LinearOrder β] {better : α → α → Bool} {key : α → β}

/-- One step keeps one of the two values, and neither has a smaller key. -/
theorem track_spec (order : ∀ a b, better a b = decide (key a < key b)) (m v : α) :
    ∃ b, track better (some m) v = some b ∧ (b = m ∨ b = v) ∧ key b ≤ key m ∧ key b ≤ key v := by
  by_cases less : key v < key m
  · exact ⟨v, by simp [track, order, less], .inr rfl, less.le, le_rfl⟩
  · exact ⟨m, by simp [track, order, less], .inl rfl, le_rfl, not_lt.mp less⟩

theorem foldl_track_some (order : ∀ a b, better a b = decide (key a < key b)) (values : List α)
    (m : α) :
    ∃ b, values.foldl (track better) (some m) = some b ∧ (b = m ∨ b ∈ values) ∧ key b ≤ key m ∧
      ∀ v ∈ values, key b ≤ key v := by
  induction values generalizing m with
  | nil => exact ⟨m, rfl, .inl rfl, le_rfl, nofun⟩
  | cons v values ih =>
      obtain ⟨c, step, source, belowM, belowV⟩ := track_spec order m v
      obtain ⟨b, run, from_, below, least⟩ := ih c
      refine ⟨b, by rw [List.foldl_cons, step, run], ?_, below.trans belowM, ?_⟩
      · rcases from_ with rfl | later
        · rcases source with rfl | rfl
          · exact .inl rfl
          · exact .inr (by simp)
        · exact .inr (by simp [later])
      · intro w member
        rcases List.mem_cons.mp member with rfl | later
        · exact below.trans belowV
        · exact least w later

/-- **The value kept is one of the values and has the smallest key.** -/
theorem foldl_track {values : List α} (order : ∀ a b, better a b = decide (key a < key b)) {b : α}
    (tracked : values.foldl (track better) none = some b) :
    b ∈ values ∧ ∀ v ∈ values, key b ≤ key v := by
  cases values with
  | nil => cases tracked
  | cons v values =>
      obtain ⟨c, run, source, below, least⟩ := foldl_track_some order values v
      cases (show some c = some b from run.symm.trans tracked)
      refine ⟨?_, fun w member => ?_⟩
      · rcases source with rfl | later
        · simp
        · simp [later]
      · rcases List.mem_cons.mp member with rfl | later
        · exact below
        · exact least w later

/-- Where keys agree, the earlier value is kept; so it does not matter which pair is compared
first. -/
theorem track_assoc (order : ∀ a b, better a b = decide (key a < key b)) (a b v : α) :
    (track better (some a) b).bind (fun m => track better (some m) v) =
      (track better (some b) v).bind fun m => track better (some a) m := by
  simp only [track, Option.bind_some, order, decide_eq_true_eq, Option.some.injEq]
  by_cases first : key b < key a
  · by_cases second : key v < key b
    · rw [if_pos first, if_pos second, if_pos (second.trans first)]
    · rw [if_pos first, if_neg second, if_pos first]
  · by_cases second : key v < key b
    · rw [if_neg first, if_pos second]
    · rw [if_neg first, if_neg second, if_neg first,
        if_neg fun less => second (less.trans_le (not_lt.mp first))]

/-- **A pass can be split.** Going on with the best value of a list is going on with the
list. -/
theorem track_best (order : ∀ a b, better a b = decide (key a < key b)) {values : List α} {m : α}
    (best : values.foldl (track better) none = some m) (start : Option α) :
    values.foldl (track better) start = track better start m := by
  cases start with
  | none => exact best
  | some a =>
      cases values with
      | nil => cases best
      | cons b rest =>
          rw [List.foldl_cons] at best ⊢
          replace best : rest.foldl (track better) (some b) = some m := best
          induction rest generalizing b with
          | nil =>
              cases best
              rfl
          | cons v rest ih =>
              obtain ⟨c, step, _⟩ := track_spec order b v
              rw [List.foldl_cons, step] at best
              have later := ih c best
              have assoc := track_assoc order a b v
              rw [step, Option.bind_some] at assoc
              rw [List.foldl_cons, ← later, ← assoc]
              rfl

/-! ## Values that do not compare -/

section Partial

variable {better : α → α → Bool} {valid : α → Bool}

/-- A first value that compares with nothing stays. -/
theorem foldl_track_stuck
    (order : ∀ a b, better a b = (valid a && valid b && decide (key a < key b))) {m : α}
    (stuck : valid m = false) (values : List α) :
    values.foldl (track better) (some m) = some m := by
  induction values with
  | nil => rfl
  | cons v values ih =>
      rw [List.foldl_cons, track, order, stuck, Bool.and_false, Bool.false_and]
      exact ih

/-- If the first value compares, what is kept compares too and has the smallest key of all
values that do. The others are passed over. -/
theorem foldl_track_valid
    (order : ∀ a b, better a b = (valid a && valid b && decide (key a < key b))) (values : List α)
    {m : α} (valid_m : valid m = true) :
    ∃ b, values.foldl (track better) (some m) = some b ∧ valid b = true ∧
      (b = m ∨ b ∈ values) ∧ key b ≤ key m ∧ ∀ v ∈ values, valid v = true → key b ≤ key v := by
  induction values generalizing m with
  | nil => exact ⟨m, rfl, valid_m, .inl rfl, le_rfl, nofun⟩
  | cons v values ih =>
      by_cases less : better v m = true
      · have both := less
        rw [order, Bool.and_eq_true, Bool.and_eq_true, decide_eq_true_eq] at both
        obtain ⟨b, run, valid_b, source, below, least⟩ := ih both.1.1
        refine ⟨b, by rw [List.foldl_cons, track, if_pos less, run], valid_b, .inr ?_,
          below.trans both.2.le, ?_⟩
        · rcases source with rfl | later
          · simp
          · simp [later]
        · intro w member valid_w
          rcases List.mem_cons.mp member with rfl | later
          · exact below
          · exact least w later valid_w
      · obtain ⟨b, run, valid_b, source, below, least⟩ := ih valid_m
        refine ⟨b, by rw [List.foldl_cons, track, if_neg less, run], valid_b, ?_, below, ?_⟩
        · rcases source with rfl | later
          · exact .inl rfl
          · exact .inr (by simp [later])
        · intro w member valid_w
          rcases List.mem_cons.mp member with rfl | later
          · rw [order, valid_w, valid_m, Bool.true_and, Bool.true_and, decide_eq_true_eq,
              not_lt] at less
            exact below.trans less
          · exact least w later valid_w

end Partial

/-! ## What is kept of groups of values -/

section Kept

variable {valid : α → Bool} {better : α → α → Bool}

/-- What is kept of these values: nothing of none, and otherwise one of them, which has the
smallest key if all of them compare. -/
def Kept (valid : α → Bool) (key : α → β) (values : List α) : Option α → Prop
  | none => values = []
  | some b => b ∈ values ∧ ((∀ v ∈ values, valid v = true) → ∀ v ∈ values, key b ≤ key v)

/-- The order prefers smaller keys, at least among values that compare. -/
def Prefers (better : α → α → Bool) (valid : α → Bool) (key : α → β) : Prop :=
  ∀ a b, valid a = true → valid b = true →
    (better a b = true → key a ≤ key b) ∧ (better a b = false → key b ≤ key a)

theorem kept_single (v : α) : Kept valid key [v] (some v) := by
  refine ⟨List.mem_singleton_self v, fun _ w member => ?_⟩
  rw [List.mem_singleton.mp member]

/-- **The better one of two that were kept** is kept of all values. -/
theorem Kept.track (prefers : Prefers better valid key) {us vs : List α} {o : Option α} {b : α}
    (kept : Kept valid key us o) (kept' : Kept valid key vs (some b)) :
    Kept valid key (us ++ vs) (Library.track better o b) := by
  cases o with
  | none =>
      obtain rfl : us = [] := kept
      exact kept'
  | some a =>
      have allLeft : (∀ v ∈ us ++ vs, valid v = true) → ∀ v ∈ us, valid v = true :=
        fun all v member => all v (List.mem_append_left vs member)
      have allRight : (∀ v ∈ us ++ vs, valid v = true) → ∀ v ∈ vs, valid v = true :=
        fun all v member => all v (List.mem_append_right us member)
      by_cases wins : better b a = true
      · rw [Library.track, if_pos wins]
        refine ⟨List.mem_append_right us kept'.1, fun all v member => ?_⟩
        have below := (prefers b a (allRight all b kept'.1) (allLeft all a kept.1)).1 wins
        rcases List.mem_append.mp member with left | right
        · exact below.trans (kept.2 (allLeft all) v left)
        · exact kept'.2 (allRight all) v right
      · rw [Library.track, if_neg wins]
        refine ⟨List.mem_append_left vs kept.1, fun all v member => ?_⟩
        have below := (prefers b a (allRight all b kept'.1) (allLeft all a kept.1)).2
          (Bool.eq_false_iff.mpr wins)
        rcases List.mem_append.mp member with left | right
        · exact kept.2 (allLeft all) v left
        · exact below.trans (kept'.2 (allRight all) v right)

end Kept

end Key

end TinyOlap.Library
