import TinyOlap.Library.Lists

/-!
# Refinement of partial computations

A computation refines another one if it is defined wherever the other is, with a related
result. The rules follow the way a computation is put together, so that a change in one
place is carried to the whole.
-/

set_option autoImplicit false

namespace TinyOlap.Library

variable {α β γ δ : Type}

/-- Every defined result of the first computation is matched by one of the second. -/
def Refines (related : α → β → Prop) (first : Option α) (second : Option β) : Prop :=
  ∀ a, first = some a → ∃ b, second = some b ∧ related a b

namespace Refines

variable {related : α → β → Prop} {related' : γ → δ → Prop}

theorem none (second : Option β) : Refines related none second := by
  intro a defined
  cases defined

theorem some {a : α} {b : β} (both : related a b) : Refines related (some a) (some b) := by
  intro a' defined
  cases defined
  exact ⟨b, rfl, both⟩

theorem trans {r : α → α → Prop} (transitive : ∀ a b c, r a b → r b c → r a c)
    {first second third : Option α} (left : Refines r first second)
    (right : Refines r second third) : Refines r first third := by
  intro a defined
  obtain ⟨b, defined', ab⟩ := left a defined
  obtain ⟨c, defined'', bc⟩ := right b defined'
  exact ⟨c, defined'', transitive a b c ab bc⟩

theorem mono {weaker : α → β → Prop} {first : Option α} {second : Option β}
    (refines : Refines related first second) (implies : ∀ a b, related a b → weaker a b) :
    Refines weaker first second := by
  intro a defined
  obtain ⟨b, defined', both⟩ := refines a defined
  exact ⟨b, defined', implies a b both⟩

/-- Computations that go on from related results. -/
theorem bind {first : Option α} {second : Option β} {f : α → Option γ} {g : β → Option δ}
    (refines : Refines related first second)
    (continue' : ∀ a b, first = .some a → related a b → Refines related' (f a) (g b)) :
    Refines related' (first >>= f) (second >>= g) := by
  intro c defined
  obtain ⟨a, here, defined⟩ := Option.bind_eq_some_iff.mp defined
  obtain ⟨b, there, both⟩ := refines a here
  obtain ⟨d, defined', result⟩ := continue' a b here both c defined
  exact ⟨d, Option.bind_eq_some_iff.mpr ⟨b, there, defined'⟩, result⟩

theorem map {first : Option α} {second : Option β} {f : α → γ} {g : β → δ}
    (refines : Refines related first second)
    (results : ∀ a b, related a b → related' (f a) (g b)) :
    Refines related' (first.map f) (second.map g) := by
  intro c defined
  obtain ⟨a, here, rfl⟩ := Option.map_eq_some_iff.mp defined
  obtain ⟨b, there, both⟩ := refines a here
  exact ⟨g b, by rw [there]; rfl, results a b both⟩

/-- A computation for each item of related lists. -/
theorem mapM {xs : List α} {ys : List β} {f : α → Option γ} {g : β → Option δ}
    (lists : List.Forall₂ related xs ys)
    (each : ∀ a ∈ xs, ∀ b, related a b → Refines related' (f a) (g b)) :
    Refines (List.Forall₂ related') (xs.mapM f) (ys.mapM g) := by
  induction lists with
  | nil => exact Refines.some .nil
  | cons both _ ih =>
      rw [List.mapM_cons, List.mapM_cons]
      refine bind (each _ (by simp) _ both) fun c d _ first => ?_
      refine bind (ih fun a member => each a (by simp [member])) fun cs ds _ rest => ?_
      exact Refines.some (.cons first rest)

/-- Two computations for each item of one list. -/
theorem mapM_same {xs : List α} {f : α → Option γ} {g : α → Option δ}
    (each : ∀ a ∈ xs, Refines related' (f a) (g a)) :
    Refines (List.Forall₂ related') (xs.mapM f) (xs.mapM g) := by
  have lists : List.Forall₂ Eq xs xs := List.forall₂_same.mpr fun _ _ => rfl
  refine mapM lists fun a member b same => ?_
  subst same
  exact each a member

/-- Two computations with the same results. -/
theorem mapM_eq {xs : List α} {f g : α → Option γ} (each : ∀ a ∈ xs, Refines Eq (f a) (g a)) :
    Refines Eq (xs.mapM f) (xs.mapM g) := by
  have both := mapM_same each
  rwa [List.forall₂_eq_eq_eq] at both

end Refines

/-- The results of a computation for each item. -/
theorem forall₂_of_mapM {f : α → Option γ} {xs : List α} {zs : List γ}
    (defined : xs.mapM f = some zs) : List.Forall₂ (fun x z => f x = some z) xs zs := by
  induction xs generalizing zs with
  | nil =>
      cases defined
      exact .nil
  | cons x xs ih =>
      rw [List.mapM_cons] at defined
      obtain ⟨z, first, defined⟩ := Option.bind_eq_some_iff.mp defined
      obtain ⟨rest, others, defined⟩ := Option.bind_eq_some_iff.mp defined
      cases defined
      exact .cons first (ih others)

end TinyOlap.Library
