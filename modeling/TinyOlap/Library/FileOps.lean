import Mathlib.Data.List.Basic

/-!
# Programs that write files

A program creates files, fills them and flushes them, one operation after the other. A
filling may take many steps: what has been written of it is a prefix, and the rest is still
to be written, behind it. What the whole of a program leaves behind (`effects`) is therefore said of
the files as they are and of the operations that are left, and stays the same while the
program goes on (`effects_perform`).

Programs that run at the same time do not disturb each other as long as they name different
files: what a program leaves in a file depends on that file alone (`effects_congr`).
-/

set_option autoImplicit false

namespace TinyOlap.Library

/-- An operation on a file. -/
inductive FileOp (N B : Type) where
  | create (name : N)
  /-- Write at an offset. -/
  | write (name : N) (offset : Nat) (contents : List B)
  | sync (name : N)
deriving DecidableEq, Repr

namespace FileOp

variable {N B : Type}

/-- The file an operation is about. -/
def name : FileOp N B → N
  | create name | write name _ _ | sync name => name

/-- The same operation, on a file of another name. -/
def named {M : Type} (name : M) : FileOp N B → FileOp M B
  | create _ => create name
  | write _ offset contents => write name offset contents
  | sync _ => sync name

theorem named_name (op : FileOp N B) : op.named op.name = op := by
  cases op <;> rfl

/-- What is left of an operation after a step of so many elements. -/
def rest (chunk : Nat) : FileOp N B → List (FileOp N B)
  | create _ | sync _ => []
  | write name offset contents =>
      if contents.length ≤ chunk then []
      else [write name (offset + chunk) (contents.drop chunk)]

/-- The part of an operation that a step of so many elements does. -/
def begun (chunk : Nat) : FileOp N B → FileOp N B
  | create name => create name
  | write name offset contents => write name offset (contents.take chunk)
  | sync name => sync name

@[simp] theorem name_begun (op : FileOp N B) (chunk : Nat) : (op.begun chunk).name = op.name := by
  cases op <;> rfl

theorem name_of_mem_rest {op left : FileOp N B} {chunk : Nat} (member : left ∈ op.rest chunk) :
    left.name = op.name := by
  cases op with
  | create name => cases member
  | sync name => cases member
  | write name offset contents =>
      by_cases all : contents.length ≤ chunk
      · rw [rest, if_pos all] at member
        cases member
      · rw [rest, if_neg all] at member
        cases List.mem_singleton.mp member
        rfl

/-! ## Writing at an offset -/

section Overlay

variable [Inhabited B]

/-- What stands in a file after a writing: the file is filled up to the offset, and what stood
where the new contents are is gone. Writing nothing changes nothing. -/
def overlay (old : List B) (offset : Nat) (contents : List B) : List B :=
  if contents = [] then old
  else old.take offset ++ List.replicate (offset - old.length) default ++ contents ++
    old.drop (offset + contents.length)

@[simp] theorem overlay_nil (contents : List B) : overlay [] 0 contents = contents := by
  unfold overlay
  split
  · simp [*]
  · simp

/-- A writing is done by writing its beginning and then the rest behind that. -/
theorem overlay_take_drop (old : List B) (offset : Nat) {contents : List B} {chunk : Nat}
    (short : chunk < contents.length) :
    overlay (overlay old offset (contents.take chunk)) (offset + chunk) (contents.drop chunk) =
      overlay old offset contents := by
  have left : contents.drop chunk ≠ [] := by simpa using short
  have some : contents ≠ [] := by
    rintro rfl
    exact absurd short (Nat.not_lt_zero _)
  by_cases none : contents.take chunk = []
  · have zero : chunk = 0 := by
      rcases List.take_eq_nil_iff.mp none with zero | empty
      · exact zero
      · exact (some empty).elim
    subst zero
    simp [overlay]
  · have front : (old.take offset ++ List.replicate (offset - old.length) (default : B)).length =
        offset := by
      rw [List.length_append, List.length_take, List.length_replicate]
      omega
    have taken : (contents.take chunk).length = chunk := by
      rw [List.length_take]
      omega
    unfold overlay
    rw [if_neg none, if_neg left, if_neg some]
    generalize old.take offset ++ List.replicate (offset - old.length) (default : B) = filled at *
    rw [taken, List.append_assoc filled, List.append_assoc filled]
    have begun : (filled ++ (contents.take chunk ++ old.drop (offset + chunk))).take
        (offset + chunk) = filled ++ contents.take chunk := by
      rw [← List.append_assoc, List.take_left' (by rw [List.length_append, front, taken])]
    have behind : (filled ++ (contents.take chunk ++ old.drop (offset + chunk))).drop
        (offset + chunk + (contents.drop chunk).length) = old.drop (offset + contents.length) := by
      rw [← List.append_assoc, List.drop_append, List.drop_eq_nil_of_le, List.nil_append,
        List.drop_drop, List.length_append, front, taken, List.length_drop]
      · congr 1
        omega
      · rw [List.length_append, front, taken]
        omega
    have full : offset + chunk -
        (filled ++ (contents.take chunk ++ old.drop (offset + chunk))).length = 0 := by
      rw [List.length_append, List.length_append, front, taken]
      omega
    rw [begun, behind, full]
    simp

end Overlay

/-! ## What programs leave behind -/

section Effects

variable [DecidableEq N]

/-- Give a file its contents. -/
def put (files : N → Option (List B)) (name : N) (contents : List B) : N → Option (List B) :=
  fun other => if other = name then some contents else files other

@[simp] theorem put_same (files : N → Option (List B)) (name : N) (contents : List B) :
    put files name contents name = some contents := by
  simp [put]

theorem put_other {files : N → Option (List B)} {name other : N} (contents : List B)
    (differ : other ≠ name) : put files name contents other = files other := by
  simp [put, differ]

variable [Inhabited B]

/-- What an operation makes of the files. A created file is empty; writing to a file that has
been removed shows nowhere. -/
def effect (files : N → Option (List B)) : FileOp N B → N → Option (List B)
  | create name => put files name []
  | write name offset contents =>
      match files name with
      | some old => put files name (overlay old offset contents)
      | none => files
  | sync _ => files

/-- What a program makes of the files. -/
def effects (files : N → Option (List B)) (ops : List (FileOp N B)) : N → Option (List B) :=
  ops.foldl effect files

theorem effects_append (files : N → Option (List B)) (ops more : List (FileOp N B)) :
    effects files (ops ++ more) = effects (effects files ops) more :=
  List.foldl_append

/-- An operation leaves other files alone. -/
theorem effect_other {files : N → Option (List B)} {op : FileOp N B} {name : N}
    (differ : name ≠ op.name) : effect files op name = files name := by
  cases op with
  | create other => exact put_other _ differ
  | write other offset contents =>
      simp only [effect]
      cases files other with
      | none => rfl
      | some old => exact put_other _ differ
  | sync other => rfl

/-- What an operation leaves in a file depends on that file alone. -/
theorem effect_congr {files files' : N → Option (List B)} {name : N}
    (same : files name = files' name) (op : FileOp N B) :
    effect files op name = effect files' op name := by
  by_cases here : name = op.name
  · subst here
    cases op with
    | create name => simp [effect, FileOp.name]
    | write name offset contents =>
        change files name = files' name at same
        simp only [effect, FileOp.name, same]
        cases files' name with
        | none => exact same
        | some old => simp
    | sync name => exact same
  · rw [effect_other here, effect_other here, same]

theorem effects_congr {files files' : N → Option (List B)} {name : N}
    (same : files name = files' name) (ops : List (FileOp N B)) :
    effects files ops name = effects files' ops name := by
  induction ops generalizing files files' with
  | nil => exact same
  | cons op ops ih => exact ih (effect_congr same op)

/-- A program leaves files alone that it does not name. -/
theorem effects_other {files : N → Option (List B)} {ops : List (FileOp N B)} {name : N}
    (differ : ∀ op ∈ ops, name ≠ op.name) : effects files ops name = files name := by
  induction ops generalizing files with
  | nil => rfl
  | cons op ops ih =>
      refine (ih fun other member => differ other (List.mem_cons_of_mem _ member)).trans ?_
      exact effect_other (differ op List.mem_cons_self)

/-- **A step changes nothing about the effect of the program.** What has been done of an
operation and what is left of it have its effect together. -/
theorem effects_perform (files : N → Option (List B)) (op : FileOp N B)
    (ops : List (FileOp N B)) (chunk : Nat) :
    effects (effect files (op.begun chunk)) (op.rest chunk ++ ops) =
      effects files (op :: ops) := by
  cases op with
  | create name => rfl
  | sync name => rfl
  | write name offset contents =>
      by_cases all : contents.length ≤ chunk
      · rw [rest, if_pos all, begun, List.take_of_length_le all]
        rfl
      · rw [rest, if_neg all]
        change effects (effect (effect files _) _) ops = effects (effect files _) ops
        congr 1
        cases present : files name with
        | none => simp [effect, begun, present]
        | some old =>
            funext other
            by_cases here : other = name
            · subst here
              simp [effect, begun, present, overlay_take_drop _ _ (Nat.not_le.mp all)]
            · simp [effect, begun, present, put_other _ here]

end Effects

end FileOp

end TinyOlap.Library
