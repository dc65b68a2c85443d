import Mathlib.Data.List.Perm.Basic

/-!
# Sums in any order

An addition that rounds is not associative, so that adding values up comes to different results
in different orders. What can be said of such a sum without an order is that each of the values
has been added once (`TotalOf`). The law of folds that take whole groups of values at once
(`foldl_related`) holds of this and of other relations between values and a result.
-/

set_option autoImplicit false

namespace TinyOlap.Library

variable {α β γ : Type}

/-- **A total of these values**: they have been added, each of them once, in some order and with
some grouping. Zeros may have been added on the way. -/
inductive TotalOf (add : α → α → α) (zero : α) : List α → α → Prop where
  | zero : TotalOf add zero [] zero
  | value (v : α) : TotalOf add zero [v] v
  | add {us vs : List α} {a b : α} (left : TotalOf add zero us a)
      (right : TotalOf add zero vs b) : TotalOf add zero (us ++ vs) (add a b)
  | perm {us vs : List α} {a : α} (total : TotalOf add zero us a) (same : us.Perm vs) :
      TotalOf add zero vs a

/-- A fold over what stands for groups of values comes to what stands for all of them. -/
theorem foldl_related {R : List γ → α → Prop} {S : List γ → β → Prop} {f : α → β → α}
    (step : ∀ us s vs b, R us s → S vs b → R (us ++ vs) (f s b)) {groups : List (List γ)}
    {values : List β} (each : List.Forall₂ S groups values) {us : List γ} {s : α}
    (related : R us s) : R (us ++ groups.flatten) (values.foldl f s) := by
  induction each generalizing us s with
  | nil => simpa using related
  | cons here _ ih =>
      rw [List.flatten_cons, ← List.append_assoc, List.foldl_cons]
      exact ih (step _ _ _ _ related here)

end TinyOlap.Library
