import Mathlib.Data.List.Basic

/-!
# Paths

A path is read component by component, from directory to directory. A slash in front starts at the
root, otherwise it starts at a given place; nothing and a dot stay where they are, two dots lead
one directory up, and a name leads to what has that name. The last component is the name of what
is found there. A text without a slash is a name in the place where its path starts
(`resolve_of_plain`), and this is the only kind of path that surely stays there.
-/

set_option autoImplicit false

namespace TinyOlap.Library.Path

/-- The pieces of a path between its slashes. -/
def components (path : String) : List String := (path.toList.splitOn '/').map String.ofList

/-- What a path names. -/
def lastComponent (path : String) : String := (components path).getLastD ""

/-- The directories that a path goes through. -/
def parents (path : String) : List String := (components path).dropLast

/-- A path without a slash. -/
def Plain (path : String) : Prop := '/' ∉ path.toList

instance (path : String) : Decidable (Plain path) := inferInstanceAs (Decidable (¬ _))

/-- A place in a tree of directories: the names on the way to it from the root. -/
abbrev Place : Type := List String

/-- One component further, if the place is a directory. There is nothing above the root. -/
def enter (isDir : Place → Bool) (place : Place) (component : String) : Option Place :=
  if isDir place then
    if component = "" ∨ component = "." then some place
    else if component = ".." then some place.dropLast
    else some (place ++ [component])
  else none

/-- The directory in which a path names something, seen from a place. -/
def resolve (isDir : Place → Bool) (place : Place) (path : String) : Option Place :=
  (parents path).foldlM (enter isDir) (if path.toList.head? = some '/' then [] else place)

theorem components_of_plain {path : String} (plain : Plain path) : components path = [path] := by
  rw [components, List.splitOn_eq_singleton plain]
  simp

theorem lastComponent_of_plain {path : String} (plain : Plain path) :
    lastComponent path = path := by
  rw [lastComponent, components_of_plain plain]
  rfl

/-- **A path without a slash stays where it starts.** -/
theorem resolve_of_plain {path : String} (plain : Plain path) (isDir : Place → Bool)
    (place : Place) : resolve isDir place path = some place := by
  have relative : path.toList.head? ≠ some '/' := fun first =>
    plain (List.mem_of_head? first)
  rw [resolve, parents, components_of_plain plain, if_neg relative]
  rfl

end TinyOlap.Library.Path
