import Mathlib.Data.List.Forall2

/-!
# Lists

What becomes of a list when one of its entries changes, and of two lists whose entries are
related one by one; and how a partial function is mapped over a list.
-/

set_option autoImplicit false

namespace TinyOlap.Library

/-- The entry at a position after one of the entries has changed. -/
theorem getElem?_set_cases {α : Type*} {i j : Nat} {new entry : α} {l : List α}
    (here : (l.set i new)[j]? = some entry) :
    (j = i ∧ entry = new) ∨ (j ≠ i ∧ l[j]? = some entry) := by
  by_cases same : j = i
  · subst same
    obtain ⟨inside, get⟩ := List.getElem?_eq_some_iff.mp here
    exact .inl ⟨rfl, by simpa using get.symm⟩
  · exact .inr ⟨same, by rwa [List.getElem?_set_ne (Ne.symm same)] at here⟩

/-! ## Related lists -/

/-- What is found for every entry of a list. -/
theorem forall₂_filterMap {α β : Type} {f : α → Option β} {R : α → β → Prop} {l : List α}
    (each : ∀ a ∈ l, ∃ b, f a = some b ∧ R a b) : List.Forall₂ R l (l.filterMap f) := by
  induction l with
  | nil => exact .nil
  | cons a l ih =>
      obtain ⟨b, here, related⟩ := each a (by simp)
      rw [List.filterMap_cons_some here]
      exact .cons related (ih fun c member => each c (by simp [member]))

theorem filterMap_of_forall₂ {α β : Type} {f : α → Option β} {l : List α} {r : List β}
    (each : List.Forall₂ (fun a b => f a = some b) l r) : l.filterMap f = r := by
  induction each with
  | nil => rfl
  | cons here _ ih => rw [List.filterMap_cons_some here, ih]

theorem map_eq_of_forall₂ {α β γ : Type*} {f : β → γ} {g : α → γ} {l : List α} {r : List β}
    (each : List.Forall₂ (fun a b => f b = g a) l r) : r.map f = l.map g := by
  induction each with
  | nil => rfl
  | cons here _ ih => rw [List.map_cons, List.map_cons, here, ih]

theorem forall₂_of_map_eq {α β γ : Type*} {f : β → γ} {g : α → γ} {l : List α} {r : List β}
    (same : r.map f = l.map g) : List.Forall₂ (fun a b => f b = g a) l r := by
  induction l generalizing r with
  | nil =>
      rw [List.map_nil, List.map_eq_nil_iff] at same
      exact same ▸ .nil
  | cons a l ih =>
      cases r with
      | nil => cases same
      | cons b r => exact .cons (List.cons.inj same).1 (ih (List.cons.inj same).2)

/-- Entries that are each related to some entry make a related list. -/
theorem exists_forall₂ {α β : Type*} {R : α → β → Prop} {xs : List α}
    (each : ∀ x ∈ xs, ∃ y, R x y) : ∃ ys, List.Forall₂ R xs ys := by
  induction xs with
  | nil => exact ⟨[], .nil⟩
  | cons x xs ih =>
      obtain ⟨y, related⟩ := each x (by simp)
      obtain ⟨ys, rest⟩ := ih fun z member => each z (by simp [member])
      exact ⟨y :: ys, .cons related rest⟩

/-- Two lists related to the same list are combined entry by entry. -/
theorem forall₂_zipWith {α β γ δ : Type*} {R : α → β → Prop} {S : α → γ → Prop}
    {T : α → δ → Prop} {f : β → γ → δ} {xs : List α} {ys : List β} {zs : List γ}
    (first : List.Forall₂ R xs ys) (second : List.Forall₂ S xs zs)
    (both : ∀ x y z, R x y → S x z → T x (f y z)) : List.Forall₂ T xs (List.zipWith f ys zs) := by
  induction first generalizing zs with
  | nil => exact .nil
  | cons here _ ih =>
      cases second with
      | cons there rest => exact .cons (both _ _ _ here there) (ih rest)

/-- Relations between three lists compose. -/
theorem forall₂_trans {α β γ : Type*} {R : α → β → Prop} {S : β → γ → Prop} {T : α → γ → Prop}
    {xs : List α} {ys : List β} {zs : List γ} (first : List.Forall₂ R xs ys)
    (second : List.Forall₂ S ys zs) (both : ∀ x y z, R x y → S y z → T x z) :
    List.Forall₂ T xs zs := by
  induction first generalizing zs with
  | nil =>
      cases second
      exact .nil
  | cons here _ ih =>
      cases second with
      | cons there rest => exact .cons (both _ _ _ here there) (ih rest)

/-- The entries that pass a test, when related entries pass it alike. -/
theorem forall₂_filter {α β : Type*} {R : α → β → Prop} {xs : List α} {ys : List β}
    {p : α → Bool} {q : β → Bool} (related : List.Forall₂ R xs ys)
    (alike : ∀ a b, R a b → p a = q b) : List.Forall₂ R (xs.filter p) (ys.filter q) := by
  induction related with
  | nil => exact .nil
  | cons here _ ih =>
      rw [List.filter_cons, List.filter_cons, ← alike _ _ here]
      split
      · exact .cons here ih
      · exact ih

theorem isEmpty_of_forall₂ {α β : Type*} {R : α → β → Prop} {xs : List α} {ys : List β}
    (related : List.Forall₂ R xs ys) : xs.isEmpty = ys.isEmpty := by
  cases related <;> rfl

theorem exists_of_mem_left {α β : Type} {R : α → β → Prop} {l : List α} {l' : List β}
    (related : List.Forall₂ R l l') {a : α} (member : a ∈ l) : ∃ b ∈ l', R a b := by
  induction related with
  | nil => cases member
  | @cons c b _ l' here _ ih =>
      rcases List.mem_cons.mp member with rfl | later
      · exact ⟨b, List.mem_cons_self, here⟩
      · obtain ⟨d, inside, related⟩ := ih later
        exact ⟨d, List.mem_cons_of_mem b inside, related⟩

theorem exists_of_mem_right {α β : Type} {R : α → β → Prop} {l : List α} {l' : List β}
    (related : List.Forall₂ R l l') {b : β} (member : b ∈ l') : ∃ a ∈ l, R a b :=
  exists_of_mem_left related.flip member

/-- Related lists are related position by position. -/
theorem forall₂_getElem? {α β : Type*} {R : α → β → Prop} {xs : List α} {ys : List β}
    (related : List.Forall₂ R xs ys) :
    List.Forall₂ (fun x y => ∃ j : Nat, xs[j]? = some x ∧ ys[j]? = some y ∧ R x y) xs ys := by
  induction related with
  | nil => exact .nil
  | cons here _ ih =>
      refine .cons ⟨0, rfl, rfl, here⟩ (ih.imp fun x y entry => ?_)
      obtain ⟨j, atX, atY, related⟩ := entry
      exact ⟨j + 1, atX, atY, related⟩

/-- The entry related to one at a position. -/
theorem exists_of_getElem? {α β : Type*} {R : α → β → Prop} {xs : List α} {ys : List β}
    (related : List.Forall₂ R xs ys) {j : Nat} {y : β} (here : ys[j]? = some y) :
    ∃ x, xs[j]? = some x ∧ R x y := by
  induction related generalizing j with
  | nil => cases here
  | cons first _ ih =>
      cases j with
      | zero =>
          cases here
          exact ⟨_, rfl, first⟩
      | succ j => exact ih here

/-- Entries of a list without repeated keys that have the same key stand at one position. -/
theorem index_eq_of_nodup {α β : Type*} {key : α → β} {l : List α} (distinct : (l.map key).Nodup)
    {i j : Nat} {x y : α} (atI : l[i]? = some x) (atJ : l[j]? = some y) (same : key x = key y) :
    i = j := by
  have inside : i < (l.map key).length := by
    rw [List.length_map]
    exact (List.getElem?_eq_some_iff.mp atI).1
  refine (List.getElem?_inj inside distinct).mp ?_
  rw [List.getElem?_map, List.getElem?_map, atI, atJ, Option.map_some, Option.map_some, same]

/-- Related entries that are mapped to the same lists make the same whole. -/
theorem flatMap_eq_of_forall₂ {α β γ : Type*} {f : α → List γ} {g : β → List γ} {xs : List α}
    {ys : List β} (related : List.Forall₂ (fun x y => f x = g y) xs ys) :
    xs.flatMap f = ys.flatMap g := by
  induction related with
  | nil => rfl
  | cons here _ ih => rw [List.flatMap_cons, List.flatMap_cons, here, ih]

/-- Related lists side by side: the second of each pair is the entry itself. -/
theorem forall₂_zip_right {α β : Type*} {R : α → β → Prop} {xs : List α} {ys : List β}
    (related : List.Forall₂ R xs ys) :
    List.Forall₂ (fun entry y => R entry.1 y ∧ entry.2 = y) (xs.zip ys) ys := by
  induction related with
  | nil => exact .nil
  | cons here _ ih => exact .cons ⟨here, rfl⟩ ih

/-- Two related lists stay related when an entry of the second one changes. -/
theorem forall₂_set {α β : Type*} {R S : α → β → Prop} {xs : List α} {ys : List β} {i : Nat}
    {y' : β} (related : List.Forall₂ R xs ys)
    (changed : ∀ x y, xs[i]? = some x → ys[i]? = some y → R x y → S x y')
    (others : ∀ j x y, j ≠ i → xs[j]? = some x → ys[j]? = some y → R x y → S x y) :
    List.Forall₂ S xs (ys.set i y') := by
  induction related generalizing i with
  | nil => exact .nil
  | @cons x y xs ys here rest ih =>
      cases i with
      | zero =>
          refine .cons (changed x y rfl rfl here) ?_
          refine (forall₂_getElem? rest).imp fun x y entry => ?_
          obtain ⟨j, atX, atY, related⟩ := entry
          exact others (j + 1) x y (by omega) atX atY related
      | succ i =>
          refine .cons (others 0 x y (by omega) rfl rfl here) ?_
          exact ih changed fun j x y differ atX atY =>
            others (j + 1) x y (by omega) atX atY

/-! ## Partial functions -/

section Partial

variable {α β γ : Type}

theorem mapM_congr {f g : α → Option β} {xs : List α} (each : ∀ x ∈ xs, f x = g x) :
    xs.mapM f = xs.mapM g := by
  induction xs with
  | nil => rfl
  | cons x xs ih =>
      rw [List.mapM_cons, List.mapM_cons, each x List.mem_cons_self,
        ih fun y member => each y (List.mem_cons_of_mem _ member)]

theorem mapM_of_forall₂ {f : α → Option γ} {g : β → Option γ} {xs : List α} {ys : List β}
    (each : List.Forall₂ (fun x y => f x = g y) xs ys) : xs.mapM f = ys.mapM g := by
  induction each with
  | nil => rfl
  | cons here _ ih => rw [List.mapM_cons, List.mapM_cons, here, ih]

theorem mapM_eq_none {f : α → Option β} {xs : List α} :
    xs.mapM f = none ↔ ∃ x ∈ xs, f x = none := by
  induction xs with
  | nil => simp
  | cons x xs ih =>
      rw [List.mapM_cons, List.exists_mem_cons_iff, ← ih]
      cases f x <;> cases xs.mapM f <;> simp

/-- A second partial function after the first. -/
theorem mapM_bind (f : α → Option β) (g : β → Option γ) (xs : List α) :
    xs.mapM (fun x => (f x).bind g) = (xs.mapM f).bind (List.mapM g) := by
  induction xs with
  | nil => rfl
  | cons x xs ih =>
      simp only [List.mapM_cons, ih]
      cases f x with
      | none => rfl
      | some y =>
          cases xs.mapM f with
          | none => cases here : g y <;> simp [here]
          | some ys => simp [List.mapM_cons]

/-- A function after a partial one. -/
theorem mapM_map (f : α → Option β) (g : β → γ) (xs : List α) :
    xs.mapM (fun x => (f x).map g) = (xs.mapM f).map (List.map g) := by
  induction xs with
  | nil => rfl
  | cons x xs ih =>
      simp only [List.mapM_cons, ih]
      cases f x <;> cases xs.mapM f <;> rfl

theorem mapM_flatten (f : α → Option β) (ls : List (List α)) :
    ls.flatten.mapM f = (ls.mapM (List.mapM f)).map List.flatten := by
  induction ls with
  | nil => rfl
  | cons l ls ih =>
      rw [List.flatten_cons, List.mapM_append, List.mapM_cons, ih]
      cases l.mapM f <;> cases ls.mapM (List.mapM f) <;> rfl

end Partial

end TinyOlap.Library
