import TinyOlap.Storage.PartOps
import TinyOlap.Storage.TableDir

/-!
# The file system around a table

The files of a part are reached by paths: that of the directory of the part, joined with the
name of a column. A name with a slash may lead out of the directory, into the table directory,
into another part or anywhere else, and then two parts share a file. So an operation on a file
is done where its path leads (`perform`), and what a part shows is what is found under the paths
of its files (`part`). If no column name has a slash, every file is one of its own directory
(`perform_of_plain`, `part_of_plain`).
-/

set_option autoImplicit false

namespace TinyOlap.Storage

open Library Library.Path Catalog

/-- Where a table directory lies, the files of the table directory itself, and those of the
directories that are not in it. -/
structure Surroundings where
  base : Place
  loose : Directory
  elsewhere : AList fun _ : Place => Directory

/-- The file system as an insert and a query use it. The directories in the table directory have
only files in them. -/
structure Disk extends Surroundings where
  /-- The directories in the table directory. -/
  table : TableDir

theorem Directory.possible (dir : Directory) : PartDir.Possible dir.contents := by
  intro name contents found
  exact ⟨dir.legal name
    (AList.lookup_isSome.mp (by rw [show dir.files.lookup _ = _ from found]; rfl)),
    dir.sizes name contents found⟩

namespace Disk

/-- A table directory without parts. -/
def fresh (around : Surroundings) : Disk where
  toSurroundings := around
  table := ∅

/-- `DATA_DIR`, seen from the directory in which the program runs. -/
def dataDir : Disk := fresh ⟨["data", "tinyolap_smoke"], .empty, ∅⟩

/-- The directory at a place. -/
def dirAt (disk : Disk) (place : Place) : Option Directory :=
  if disk.base <+: place then
    match place.drop disk.base.length with
    | [] => some disk.loose
    | [name] => disk.table.lookup name
    | _ => none
  else if place <+: disk.base then some ((disk.elsewhere.lookup place).getD .empty)
  else disk.elsewhere.lookup place

def isDir (disk : Disk) (place : Place) : Bool := (disk.dirAt place).isSome

/-- Put a directory at a place. -/
def putDir (disk : Disk) (place : Place) (dir : Directory) : Disk :=
  if disk.base <+: place then
    match place.drop disk.base.length with
    | [] => { disk with loose := dir }
    | [name] => { disk with table := disk.table.insert name dir }
    | _ => disk
  else { disk with elsewhere := disk.elsewhere.insert place dir }

/-- The directory that the path of a file leads to, and what is there. -/
def find (disk : Disk) (dirName : String) (name : FileName) : Option (Place × Directory) := do
  let place ← resolve disk.isDir (disk.base ++ [dirName]) name.text
  let dir ← disk.dirAt place
  some (place, dir)

/-! ## Operations -/

/-- Do an operation on a file, where its path leads. -/
def perform (disk : Disk) (dirName : String) (op : PartOp) : IoResult Disk :=
  if op.name.Legal then
    match disk.find dirName op.name with
    | none => .err notFound
    | some (place, dir) =>
        if disk.isDir (place ++ [op.name.last.text]) then .err isADirectory
        else do
          let dir ← dir.perform (op.named op.name.last)
          .ok (disk.putDir place dir)
  else .err op.name.refusal

/-- Do operations one after the other, up to the first that fails. -/
def performAll (disk : Disk) (dirName : String) : List PartOp → IoResult Unit × Disk
  | [] => (.ok (), disk)
  | op :: ops =>
      match disk.perform dirName op with
      | .ok disk => performAll disk dirName ops
      | .err e => (.err e, disk)
      | .panic => (.panic, disk)

def createDirAll (disk : Disk) (dirName : String) : Disk :=
  { disk with table := disk.table.createDirAll dirName }

def removeDirAll (disk : Disk) (dirName : String) : Disk :=
  { disk with table := disk.table.erase dirName }

def rename (disk : Disk) (old new : String) : IoResult Disk := do
  let table ← disk.table.rename old new
  .ok { disk with table := table }

/-! ## What a query sees -/

/-- What is found under the path of a file. -/
def contents (disk : Disk) (dirName : String) (name : FileName) : Option Bytes :=
  if name.Legal then (disk.find dirName name).bind fun found => found.2.contents name.last
  else none

/-- What the files of a part of this schema show. -/
def part (disk : Disk) (schema : TableSchema) (dirName : String) : PartDir := fun name =>
  if PartFile schema name then disk.contents dirName name else none

/-- The directories that a query lists. -/
def listed (disk : Disk) : List String := disk.table.keys.reverse.filter fun name => ListedName name

/-- What a query sees of a table. -/
def parts (disk : Disk) (schema : TableSchema) : List (String × PartDir) :=
  disk.listed.map fun name => (name, disk.part schema name)

/-- The names in the table directory. -/
def entries (disk : Disk) : List String :=
  disk.table.keys ++ disk.loose.files.keys.map FileName.text

/-! ## Plain names -/

variable {disk disk' : Disk} {dirName : String} {name : FileName}

@[simp] theorem dirAt_own (disk : Disk) (dirName : String) :
    disk.dirAt (disk.base ++ [dirName]) = disk.table.lookup dirName := by
  simp [dirAt]

@[simp] theorem putDir_own (disk : Disk) (dirName : String) (dir : Directory) :
    disk.putDir (disk.base ++ [dirName]) dir =
      { disk with table := disk.table.insert dirName dir } := by
  simp [putDir]

theorem find_of_plain (plain : name.Plain) :
    disk.find dirName name =
      (disk.table.lookup dirName).map fun dir => (disk.base ++ [dirName], dir) := by
  rw [find, resolve_of_plain (FileName.text_plain plain), Option.bind_eq_bind, Option.bind_some,
    dirAt_own]
  cases disk.table.lookup dirName <;> rfl

/-- Nothing in a directory of a table is a directory. -/
theorem not_isDir_own (disk : Disk) (dirName file : String) :
    disk.isDir (disk.base ++ [dirName] ++ [file]) = false := by
  rw [isDir, dirAt, if_pos ((List.prefix_append _ _).trans (List.prefix_append _ _)),
    List.append_assoc, List.drop_left]
  rfl

/-- **An operation on a file of a plain name** is one in its own directory. -/
theorem perform_of_plain {op : PartOp} (plain : op.name.Plain)
    (done : disk.perform dirName op = .ok disk') :
    ∃ dir dir', disk.table.lookup dirName = some dir ∧ dir.perform op = .ok dir' ∧
      disk' = { disk with table := disk.table.insert dirName dir' } := by
  rw [perform] at done
  split at done
  · rw [find_of_plain plain] at done
    cases found : disk.table.lookup dirName with
    | none =>
        rw [found] at done
        cases done
    | some dir =>
        simp only [found, Option.map_some, not_isDir_own, FileName.last_of_plain plain,
          FileOp.named_name, Bool.false_eq_true, if_false] at done
        obtain ⟨dir', performed, same⟩ := Outcome.bind_eq_ok.mp done
        rw [putDir_own] at same
        cases same
        exact ⟨dir, dir', rfl, performed, rfl⟩
  · cases done

theorem contents_of_plain (plain : name.Plain) :
    disk.contents dirName name = (disk.table.lookup dirName).bind fun dir => dir.contents name := by
  rw [contents, find_of_plain plain, FileName.last_of_plain plain]
  cases disk.table.lookup dirName with
  | none => simp
  | some dir =>
      simp only [Option.map_some, Option.bind_some]
      by_cases legal : name.Legal
      · rw [if_pos legal]
      · rw [if_neg legal]
        cases found : dir.contents name with
        | none => rfl
        | some bytes => exact (legal (dir.possible name bytes found).1).elim

end Disk

theorem PartFile.plain {schema : TableSchema} (plain : schema.PlainNames) {name : FileName}
    (file : PartFile schema name) : name.Plain := by
  rcases file with rfl | ⟨col, member, rfl | rfl⟩
  · trivial
  · exact plain col member
  · exact plain col member

namespace Disk

variable {schema : TableSchema} {disk disk' : Disk} {dirName : String}

/-- **What a part shows if no column name has a slash** are the files of its directory. -/
theorem part_of_plain (plain : schema.PlainNames) (disk : Disk) (dirName : String) :
    disk.part schema dirName = fun name =>
      if PartFile schema name then (disk.table.lookup dirName).bind fun dir => dir.contents name
      else none := by
  funext name
  unfold part
  split
  · exact contents_of_plain (PartFile.plain plain ‹_›)
  · rfl

theorem part_congr (plain : schema.PlainNames)
    (same : disk'.table.lookup dirName = disk.table.lookup dirName) :
    disk'.part schema dirName = disk.part schema dirName := by
  rw [part_of_plain plain, part_of_plain plain, same]

theorem part_possible (plain : schema.PlainNames) : (disk.part schema dirName).Possible := by
  intro name contents found
  rw [part_of_plain plain] at found
  simp only at found
  split at found
  · obtain ⟨dir, _, here⟩ := Option.bind_eq_some_iff.mp found
    exact dir.possible name contents here
  · cases found

/-- A directory shows all its files if they are those of a part. -/
theorem part_eq_contents (plain : schema.PlainNames) {dir : Directory}
    (found : disk.table.lookup dirName = some dir)
    (files : ∀ file, (dir.contents file).isSome → PartFile schema file) :
    disk.part schema dirName = dir.contents := by
  rw [part_of_plain plain]
  funext name
  rw [found, Option.bind_some]
  split
  · rfl
  · rename_i other
    cases present : dir.contents name with
    | none => rfl
    | some bytes => exact (other (files name (by rw [present]; rfl))).elim

end Disk

end TinyOlap.Storage
