import Mathlib.Control.Basic
import TinyOlap.Library.Lists

/-!
# Outcomes of calls that can fail or panic

A call returns a value, returns an error, or panics. The three are kept apart:
an error is a value the caller can handle, while a panic unwinds the thread.

`Outcome` is a monad, so a function body reads as it does in a language with a
`?` operator. Code is peeled apart with `bind_eq_ok`: a sequence of calls
returns a value exactly when each of its calls does.
-/

set_option autoImplicit false

namespace TinyOlap.Library

/-- How a call ends. -/
inductive Outcome (ε α : Type) where
  | ok (value : α)
  | err (error : ε)
  | panic
deriving DecidableEq, Repr

namespace Outcome

variable {ε ε' α β : Type}

/-- Run the continuation on a returned value; errors and panics propagate. -/
def bind : Outcome ε α → (α → Outcome ε β) → Outcome ε β
  | ok a, f => f a
  | err e, _ => err e
  | panic, _ => panic

instance : Monad (Outcome ε) where
  pure := ok
  bind := bind

@[simp] theorem ok_bind (a : α) (f : α → Outcome ε β) : (ok a >>= f) = f a := rfl

@[simp] theorem err_bind (e : ε) (f : α → Outcome ε β) :
    ((err e : Outcome ε α) >>= f) = err e := rfl

@[simp] theorem panic_bind (f : α → Outcome ε β) :
    ((panic : Outcome ε α) >>= f) = panic := rfl

@[simp] theorem pure_eq_ok (a : α) : (pure a : Outcome ε α) = ok a := rfl

instance : LawfulMonad (Outcome ε) :=
  LawfulMonad.mk' _ (fun x => by cases x <;> rfl) (fun _ _ => rfl)
    (fun x _ _ => by cases x <;> rfl)

@[simp] theorem map_ok (f : α → β) (a : α) : (f <$> (ok a : Outcome ε α)) = ok (f a) := rfl

theorem map_eq_ok {x : Outcome ε α} {f : α → β} {b : β} :
    f <$> x = ok b ↔ ∃ a, x = ok a ∧ f a = b := by
  cases x with
  | ok a => simp
  | err e => exact ⟨nofun, nofun⟩
  | panic => exact ⟨nofun, nofun⟩

/-- A sequence returns a value exactly when both of its calls do. -/
theorem bind_eq_ok {x : Outcome ε α} {f : α → Outcome ε β} {b : β} :
    (x >>= f) = ok b ↔ ∃ a, x = ok a ∧ f a = ok b := by
  cases x with
  | ok a => simp
  | err e => simp
  | panic => simp

/-- A sequence does not panic if neither of its calls does. -/
theorem bind_ne_panic {x : Outcome ε α} {f : α → Outcome ε β} (first : x ≠ panic)
    (rest : ∀ a, x = ok a → f a ≠ panic) : (x >>= f) ≠ panic := by
  cases x with
  | ok a => exact rest a rfl
  | err e => simp
  | panic => exact absurd rfl first

/-- The call returns a value or an error that the predicate allows; it does not panic. -/
def FailsOnly (allowed : ε → Prop) : Outcome ε α → Prop
  | ok _ => True
  | err e => allowed e
  | panic => False

/-- A sequence only fails as its calls do. -/
theorem FailsOnly.bind {allowed : ε → Prop} {x : Outcome ε α} {f : α → Outcome ε β}
    (first : x.FailsOnly allowed) (rest : ∀ a, x = ok a → (f a).FailsOnly allowed) :
    (x >>= f).FailsOnly allowed := by
  cases x with
  | ok a => exact rest a rfl
  | err e => exact first
  | panic => exact first.elim

/-- Change the error and leave values and panics alone. -/
def mapErr (f : ε → ε') : Outcome ε α → Outcome ε' α
  | ok a => ok a
  | err e => err (f e)
  | panic => panic

@[simp] theorem mapErr_ok (f : ε → ε') (a : α) : (ok a : Outcome ε α).mapErr f = ok a := rfl

theorem mapErr_eq_ok {f : ε → ε'} {x : Outcome ε α} {a : α} :
    x.mapErr f = ok a ↔ x = ok a := by
  cases x <;> simp [mapErr]

theorem mapErr_ne_panic {f : ε → ε'} {x : Outcome ε α} (returns : x ≠ panic) :
    x.mapErr f ≠ panic := by
  cases x with
  | ok a => simp [mapErr]
  | err e => simp [mapErr]
  | panic => exact absurd rfl returns

/-- A missing value is the given error. -/
def ofOption (e : ε) : Option α → Outcome ε α
  | some a => ok a
  | none => err e

theorem ofOption_ne_panic (e : ε) (x : Option α) : ofOption e x ≠ panic := by
  cases x <;> simp [ofOption]

theorem ofOption_eq_ok {e : ε} {x : Option α} {a : α} : ofOption e x = ok a ↔ x = some a := by
  cases x <;> simp [ofOption]

/-- The result of a call that does not panic. -/
def ofExcept (f : ε' → ε) : Except ε' α → Outcome ε α
  | .ok a => ok a
  | .error e => err (f e)

theorem ofExcept_ne_panic (f : ε' → ε) (x : Except ε' α) : ofExcept f x ≠ panic := by
  cases x <;> simp [ofExcept]

/-- A missing value is a panic: `unwrap`, `expect`, an index out of range. -/
def orPanic : Option α → Outcome ε α
  | some a => ok a
  | none => panic

@[simp] theorem orPanic_some (a : α) : (orPanic (some a) : Outcome ε α) = ok a := rfl

theorem orPanic_eq_ok {x : Option α} {a : α} :
    (orPanic x : Outcome ε α) = ok a ↔ x = some a := by
  cases x <;> simp [orPanic]

/-- A traversal whose every call returns is the plain map. -/
theorem mapM_ok {f : α → Outcome ε β} {g : α → β} {l : List α} (each : ∀ a ∈ l, f a = ok (g a)) :
    l.mapM f = ok (l.map g) := by
  induction l with
  | nil => rfl
  | cons a l ih =>
      rw [List.mapM_cons, each a (by simp), ih fun b hb => each b (by simp [hb])]
      rfl

/-- A traversal that returns has called its function with success everywhere. -/
theorem mapM_eq_ok {f : α → Outcome ε β} {l : List α} {r : List β} (h : l.mapM f = ok r) :
    List.Forall₂ (fun a b => f a = ok b) l r := by
  induction l generalizing r with
  | nil =>
      cases (show ok [] = ok r from h)
      exact .nil
  | cons a l ih =>
      rw [List.mapM_cons, bind_eq_ok] at h
      obtain ⟨b, hb, h⟩ := h
      obtain ⟨bs, hbs, h⟩ := bind_eq_ok.mp h
      cases h
      exact .cons hb (ih hbs)

theorem mapM_of_forall₂ {f : α → Outcome ε β} {l : List α} {r : List β}
    (each : List.Forall₂ (fun a b => f a = ok b) l r) : l.mapM f = ok r := by
  induction each with
  | nil => rfl
  | cons here _ ih =>
      rw [List.mapM_cons, here, ih]
      rfl

/-- A traversal returns exactly when all its calls do. -/
theorem mapM_isOk_iff {f : α → Outcome ε β} {l : List α} :
    (∃ r, l.mapM f = ok r) ↔ ∀ a ∈ l, ∃ b, f a = ok b := by
  induction l with
  | nil => exact ⟨fun _ => nofun, fun _ => ⟨[], rfl⟩⟩
  | cons a l ih =>
      rw [List.forall_mem_cons, ← ih, List.mapM_cons]
      constructor
      · rintro ⟨_, made⟩
        obtain ⟨b, first, made⟩ := bind_eq_ok.mp made
        obtain ⟨bs, later, _⟩ := bind_eq_ok.mp made
        exact ⟨⟨b, first⟩, bs, later⟩
      · rintro ⟨⟨b, first⟩, bs, later⟩
        exact ⟨b :: bs, by rw [first, ok_bind, later]; rfl⟩

/-- **When a traversal panics**: at the first call that does not return, if this one panics. -/
theorem mapM_eq_panic {f : α → Outcome ε β} {l : List α} :
    l.mapM f = panic ↔ ∃ before a after, l = before ++ a :: after ∧
      (∀ b ∈ before, ∃ x, f b = ok x) ∧ f a = panic := by
  constructor
  · intro panicked
    induction l with
    | nil => cases panicked
    | cons a l ih =>
        rw [List.mapM_cons] at panicked
        cases first : f a with
        | panic => exact ⟨[], a, l, rfl, nofun, first⟩
        | err e =>
            rw [first] at panicked
            cases panicked
        | ok b =>
            rw [first, ok_bind] at panicked
            cases later : l.mapM f with
            | panic =>
                obtain ⟨before, c, after, rfl, returned, here⟩ := ih later
                exact ⟨a :: before, c, after, rfl,
                  List.forall_mem_cons.mpr ⟨⟨b, first⟩, returned⟩, here⟩
            | err e =>
                rw [later] at panicked
                cases panicked
            | ok bs =>
                rw [later] at panicked
                cases panicked
  · rintro ⟨before, a, after, rfl, returned, here⟩
    induction before with
    | nil => rw [List.nil_append, List.mapM_cons, here, panic_bind]
    | cons b before ih =>
        obtain ⟨⟨x, first⟩, rest⟩ := List.forall_mem_cons.mp returned
        rw [List.cons_append, List.mapM_cons, first, ok_bind, ih rest, panic_bind]

/-- A traversal that panics has called its function with a panic. -/
theorem exists_panic_of_mapM {f : α → Outcome ε β} {l : List α} (h : l.mapM f = panic) :
    ∃ a ∈ l, f a = panic := by
  obtain ⟨before, a, after, rfl, _, here⟩ := mapM_eq_panic.mp h
  exact ⟨a, List.mem_append_right _ List.mem_cons_self, here⟩

theorem mapM_ne_panic {f : α → Outcome ε β} {l : List α} (each : ∀ a ∈ l, f a ≠ panic) :
    l.mapM f ≠ panic := by
  intro h
  obtain ⟨a, member, here⟩ := exists_panic_of_mapM h
  exact each a member here

/-- A loop returns exactly when all its calls do. -/
theorem forM_eq_ok {f : α → Outcome ε PUnit} {l : List α} :
    l.forM f = ok ⟨⟩ ↔ ∀ a ∈ l, f a = ok ⟨⟩ := by
  induction l with
  | nil => exact ⟨fun _ => nofun, fun _ => rfl⟩
  | cons a l ih =>
      change (f a >>= fun _ => l.forM f) = ok ⟨⟩ ↔ _
      rw [bind_eq_ok, List.forall_mem_cons]
      exact ⟨fun ⟨_, first, rest⟩ => ⟨first, ih.mp rest⟩,
        fun ⟨first, rest⟩ => ⟨⟨⟩, first, ih.mpr rest⟩⟩

theorem exists_panic_of_forM {f : α → Outcome ε PUnit} {l : List α} (h : l.forM f = panic) :
    ∃ a ∈ l, f a = panic := by
  induction l with
  | nil => cases h
  | cons a l ih =>
      change (f a >>= fun _ => l.forM f) = panic at h
      cases first : f a with
      | panic => exact ⟨a, by simp, first⟩
      | err e =>
          rw [first] at h
          cases h
      | ok b =>
          rw [first, ok_bind] at h
          obtain ⟨c, member, here⟩ := ih h
          exact ⟨c, by simp [member], here⟩

/-- A traversal that looks up what is there. -/
theorem mapM_ofOption {e : α → ε} {f : α → Option β} {l : List α}
    (each : ∀ a ∈ l, (f a).isSome) :
    l.mapM (fun a => ofOption (e a) (f a)) = ok (l.filterMap f) := by
  induction l with
  | nil => rfl
  | cons a l ih =>
      obtain ⟨b, here⟩ := Option.isSome_iff_exists.mp (each a (by simp))
      rw [List.mapM_cons, ih fun c member => each c (by simp [member]), here,
        List.filterMap_cons_some here]
      rfl

end Outcome

end TinyOlap.Library
