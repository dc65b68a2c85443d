import TinyOlap.Encoding.StringCodec
import TinyOlap.Library.LittleEndian
import TinyOlap.Library.Outcome
import TinyOlap.Library.Path

/-!
# Files of a part

A part is a directory of files: two for each column and one for the zone map. What a part
shows maps the names of its files to their contents. Creating a file fails when its name
cannot be one, and writing fails when the file would grow beyond the greatest file offset;
what was written is what is read. A name is joined to the path of the directory as it is, so
one with a slash in it is a path that may lead elsewhere; where it leads, and whether two
names are one file, is a matter of the file system as a whole.
-/

set_option autoImplicit false

namespace TinyOlap.Storage

open Library Encoding

inductive IoErrorKind where
  | notFound
  | invalidInput
  | invalidData
  | unexpectedEof
  | invalidFilename
  | fileTooLarge
  | isADirectory
  | directoryNotEmpty
deriving DecidableEq, Repr

structure IoError where
  kind : IoErrorKind
  message : String
deriving DecidableEq, Repr

abbrev IoResult (α : Type) : Type := Outcome IoError α

/-! ## Refusals of the file system -/

def notFound : IoError := ⟨.notFound, "No such file or directory (os error 2)"⟩

def isADirectory : IoError := ⟨.isADirectory, "Is a directory (os error 21)"⟩

def fileTooLarge : IoError := ⟨.fileTooLarge, "File too large (os error 27)"⟩

def nameTooLong : IoError := ⟨.invalidFilename, "File name too long (os error 36)"⟩

def directoryNotEmpty : IoError := ⟨.directoryNotEmpty, "Directory not empty (os error 39)"⟩

def nulInName : IoError :=
  ⟨.invalidInput, "file name contained an unexpected NUL byte"⟩

/-- The debug text of an encoding error. -/
def debugText : EncodingError → String
  | .truncated => "Truncated"
  | .badHeader => "BadHeader"
  | .unsupportedStride n => "UnsupportedStride(" ++ toString n ++ ")"
  | .invalidUtf8 => "InvalidUtf8"
  | .corrupt => "Corrupt"

/-- An encoding error met while reading: invalid data. -/
def encodingError (e : EncodingError) : IoError := ⟨.invalidData, debugText e⟩

/-! ## Names -/

/-- The files of a part directory. -/
inductive FileName where
  | bin (column : String)
  | mrk (column : String)
  | zonemap
deriving DecidableEq, Repr

namespace FileName

def text : FileName → String
  | bin column => column ++ ".bin"
  | mrk column => column ++ ".mrk"
  | zonemap => "part.zonemap"

/-- The name of the file in the directory to which the path leads. -/
def last : FileName → FileName
  | bin column => bin (Path.lastComponent column)
  | mrk column => mrk (Path.lastComponent column)
  | zonemap => zonemap

/-- A name without a slash, which names a file of the directory it is joined to. -/
def Plain : FileName → Prop
  | bin column | mrk column => Path.Plain column
  | zonemap => True

/-- A path the file system accepts. -/
def Legal (name : FileName) : Prop :=
  '\x00' ∉ name.text.toList ∧ (utf8 name.text).length < 4096 ∧
    (utf8 (Path.lastComponent name.text)).length ≤ 255

instance (name : FileName) : Decidable name.Legal := inferInstanceAs (Decidable (_ ∧ _))

/-- Why a path is not accepted. -/
def refusal (name : FileName) : IoError :=
  if '\x00' ∈ name.text.toList then nulInName else nameTooLong

theorem text_plain {name : FileName} (plain : name.Plain) : Path.Plain name.text := by
  cases name with
  | bin column | mrk column =>
      simp only [Plain, Path.Plain] at plain
      simp [text, Path.Plain, plain]
  | zonemap => decide

theorem last_of_plain {name : FileName} (plain : name.Plain) : name.last = name := by
  cases name with
  | bin column | mrk column => rw [last, Path.lastComponent_of_plain plain]
  | zonemap => rfl

end FileName

/-! ## Directories -/

/-- The contents of the files of a part directory, as they are found under its path. -/
def PartDir : Type := FileName → Option Bytes

namespace PartDir

/-- A fresh directory. -/
def empty : PartDir := fun _ => none

def set (dir : PartDir) (name : FileName) (contents : Bytes) : PartDir :=
  fun other => if other = name then some contents else dir other

@[simp] theorem set_same (dir : PartDir) (name : FileName) (contents : Bytes) :
    dir.set name contents name = some contents := by
  simp [set]

theorem set_other {dir : PartDir} {name other : FileName} (contents : Bytes)
    (differ : other ≠ name) : dir.set name contents other = dir other := by
  simp [set, differ]

/-- The greatest size of a file. -/
def maxFileBytes : Nat := 2 ^ 63 - 1

/-- `File::create`: an empty file under the name, whatever was there before. -/
def create (dir : PartDir) (name : FileName) : IoResult PartDir :=
  if name.Legal then .ok (dir.set name []) else .err name.refusal

/-- Fill a created file. -/
def write (dir : PartDir) (name : FileName) (contents : Bytes) : IoResult PartDir :=
  if contents.length ≤ maxFileBytes then .ok (dir.set name contents) else .err fileTooLarge

/-- Open a file for reading: its contents. -/
def read (dir : PartDir) (name : FileName) : IoResult Bytes :=
  .ofOption notFound (dir name)

theorem create_eq_ok {dir dir' : PartDir} {name : FileName} (h : dir.create name = .ok dir') :
    name.Legal ∧ dir' = dir.set name [] := by
  unfold create at h
  split at h
  · cases h
    exact ⟨‹_›, rfl⟩
  · cases h

theorem write_eq_ok {dir dir' : PartDir} {name : FileName} {contents : Bytes}
    (h : dir.write name contents = .ok dir') :
    contents.length ≤ maxFileBytes ∧ dir' = dir.set name contents := by
  unfold write at h
  split at h
  · cases h
    exact ⟨‹_›, rfl⟩
  · cases h

theorem read_of_some {dir : PartDir} {name : FileName} {contents : Bytes}
    (present : dir name = some contents) : dir.read name = .ok contents := by
  rw [read, present]
  rfl

end PartDir

/-! ## Reading at a position -/

/-- `read_exact`: the next `n` bytes, or an error if the file ends before. -/
def readExact (bin : Bytes) (position n : Nat) : IoResult Bytes :=
  if position + n ≤ bin.length then .ok ((bin.drop position).take n)
  else .err ⟨.unexpectedEof, "failed to fill whole buffer"⟩

theorem readExact_ne_panic (file : Bytes) (position n : Nat) :
    readExact file position n ≠ .panic := by
  rw [readExact]
  split <;> simp

/-- Behind a piece of known length stands what follows it. -/
theorem drop_add_of_drop {α : Type} {l piece rest : List α} {position n : Nat}
    (here : l.drop position = piece ++ rest) (length : piece.length = n) :
    l.drop (position + n) = rest := by
  rw [← List.drop_drop, here, List.drop_left' length]

theorem readExact_of_drop {bin : Bytes} {position n : Nat} {piece rest : Bytes}
    (here : bin.drop position = piece ++ rest) (length : piece.length = n)
    (inside : position ≤ bin.length) : readExact bin position n = .ok piece := by
  have enough : position + n ≤ bin.length := by
    have := congrArg List.length here
    rw [List.length_drop, List.length_append] at this
    omega
  rw [readExact, if_pos enough, here, List.take_left' length]

end TinyOlap.Storage
