import Mathlib.Data.List.AList
import TinyOlap.Library.Decimal
import TinyOlap.Library.FileOps
import TinyOlap.Storage.Files
import TinyOlap.Catalog.Schema

/-!
# The table directory

The directory of a table has a directory for each part and for each insert that is under
way. Their names tell them apart: a part is `part_` and its number, an insert that is under
way has `tmp_` in front of that, and a query lists the names that begin with `part_`. The
number of the next part is found by reading the names back.
-/

set_option autoImplicit false

namespace TinyOlap.Storage

open Library Catalog

/-! ## A directory of files -/

/-- The files of a directory. Their names are legal and none is too large. -/
structure Directory where
  files : AList fun _ : FileName => Bytes
  legal : ∀ name ∈ files, name.Legal
  sizes : ∀ name, ∀ contents ∈ files.lookup name, contents.length ≤ PartDir.maxFileBytes

namespace Directory

/-- The contents of the files. -/
def contents (dir : Directory) : FileName → Option Bytes := fun name => dir.files.lookup name

/-- A directory without files. -/
def empty : Directory where
  files := ∅
  legal := fun _ member => (AList.notMem_empty _ member).elim
  sizes := by simp

/-- Put a file of a legal name and size into the directory. -/
def put (dir : Directory) (name : FileName) (contents : Bytes) (legal : name.Legal)
    (size : contents.length ≤ PartDir.maxFileBytes) : Directory where
  files := dir.files.insert name contents
  legal := fun other member => by
    rcases (AList.mem_insert _).mp member with rfl | old
    · exact legal
    · exact dir.legal other old
  sizes := fun other found member => by
    by_cases here : other = name
    · subst here
      rw [AList.lookup_insert] at member
      cases member
      exact size
    · rw [AList.lookup_insert_ne here] at member
      exact dir.sizes other found member

@[simp] theorem contents_put (dir : Directory) (name : FileName) (bytes : Bytes)
    (legal : name.Legal) (size : bytes.length ≤ PartDir.maxFileBytes) :
    (dir.put name bytes legal size).contents = FileOp.put dir.contents name bytes := by
  funext other
  by_cases here : other = name
  · subst here
    rw [FileOp.put_same]
    exact AList.lookup_insert _
  · rw [FileOp.put_other _ here]
    exact AList.lookup_insert_ne here

/-- Take a file out of the directory. -/
def remove (dir : Directory) (name : FileName) : Directory where
  files := dir.files.erase name
  legal := fun other member => dir.legal other (AList.mem_erase.mp member).2
  sizes := fun other found member => by
    by_cases here : other = name
    · subst here
      rw [AList.lookup_erase] at member
      cases member
    · rw [AList.lookup_erase_ne here] at member
      exact dir.sizes other found member

theorem contents_remove {dir : Directory} {name other : FileName} {bytes : Bytes}
    (found : (dir.remove name).contents other = some bytes) : dir.contents other = some bytes := by
  by_cases here : other = name
  · subst here
    simp [contents, remove] at found
  · rwa [contents, remove, AList.lookup_erase_ne here] at found

/-- Do an operation. `File::create` makes an empty file of whatever was there and refuses a
name that cannot be a file name; a file that would grow too large is not written to. -/
def perform (dir : Directory) : FileOp FileName UInt8 → IoResult Directory
  | .create name =>
      if legal : name.Legal then .ok (dir.put name [] legal (Nat.zero_le _))
      else .err name.refusal
  | .write name offset bytes =>
      match dir.contents name with
      | none => .ok dir
      | some old =>
          let contents := FileOp.overlay old offset bytes
          if legal : name.Legal then
            if size : contents.length ≤ PartDir.maxFileBytes then
              .ok (dir.put name contents legal size)
            else .err fileTooLarge
          else .err name.refusal
  | .sync _ => .ok dir

/-- An operation that is done has its effect. -/
theorem contents_perform {dir dir' : Directory} {op : FileOp FileName UInt8}
    (done : dir.perform op = .ok dir') : dir'.contents = FileOp.effect dir.contents op := by
  cases op with
  | create name =>
      simp only [perform] at done
      split at done
      · cases done
        exact contents_put ..
      · cases done
  | write name offset bytes =>
      simp only [perform] at done
      simp only [FileOp.effect]
      cases present : dir.contents name with
      | none =>
          rw [present] at done
          cases done
          rfl
      | some old =>
          simp only [present] at done
          split at done
          · split at done
            · cases done
              exact contents_put ..
            · cases done
          · cases done
  | sync name =>
      cases done
      rfl

end Directory

/-! ## Names -/

/-- The name of the temporary directory of a part. -/
def tmpName (id : Nat) : String := "tmp_" ++ partName id

/-- The text behind a prefix. -/
def stripPrefix (front text : String) : Option String :=
  if front.toList <+: text.toList then
    some (String.ofList (text.toList.drop front.toList.length))
  else none

theorem stripPrefix_append (front back : String) :
    stripPrefix front (front ++ back) = some back := by
  simp [stripPrefix]

/-- A query lists the directories with this name. -/
def ListedName (name : String) : Prop := "part_".toList <+: name.toList

instance (name : String) : Decidable (ListedName name) :=
  inferInstanceAs (Decidable (_ <+: _))

theorem listedName_partName (id : Nat) : ListedName (partName id) := by
  simp [ListedName, partName]

theorem not_listedName_tmpName (id : Nat) : ¬ ListedName (tmpName id) := by
  intro listed
  obtain ⟨rest, same⟩ := listed
  simp [tmpName] at same

/-- The digits of a name are those of its number, behind zeros. -/
theorem toList_padded (n : Nat) :
    ∃ count, (padded n).toList = List.replicate count '0' ++ Nat.toDigits 10 n := by
  refine ⟨5 - (toString n).length, ?_⟩
  simp only [padded, String.toList_append, String.toList_ofList]
  exact congrArg _ Nat.toList_repr

theorem parse_padded {id : Nat} (small : id < 2 ^ 32) :
    (Decimal.parseInt false 31 (padded id)).map MachineInt.val = some (id : Int) := by
  obtain ⟨count, digits⟩ := toList_padded id
  have only : Decimal.digitsOnly (padded id).toList = true := by
    obtain ⟨nonempty, all⟩ := Decimal.digitsOnly_eq_true.mp (Decimal.digitsOnly_toDigits id)
    refine Decimal.digitsOnly_eq_true.mpr ⟨by simp [digits, nonempty], fun c member => ?_⟩
    rw [digits] at member
    rcases List.mem_append.mp member with zero | digit
    · rw [(List.mem_replicate.mp zero).2]
      rfl
    · exact all c digit
  rw [Decimal.parseInt_of_digitsOnly _ _ only, digits, Decimal.ofDigits_zeros,
    Decimal.ofDigits_toDigits]
  have range : minVal false 31 ≤ (id : Int) ∧ (id : Int) ≤ maxVal false 31 := by
    simp [minVal, maxVal]
    omega
  rw [MachineInt.ofInt?, dif_pos range]
  rfl

theorem partName_inj {id id' : Nat} (small : id < 2 ^ 32) (small' : id' < 2 ^ 32)
    (same : partName id = partName id') : id = id' := by
  have digits : padded id = padded id' := by
    have := congrArg (stripPrefix "part_") same
    simpa only [partName, stripPrefix_append, Option.some.injEq] using this
  have parsed := parse_padded small
  rw [digits, parse_padded small'] at parsed
  have := Option.some.inj parsed
  omega

theorem tmpName_inj {id id' : Nat} (small : id < 2 ^ 32) (small' : id' < 2 ^ 32)
    (same : tmpName id = tmpName id') : id = id' := by
  refine partName_inj small small' ?_
  have := congrArg (stripPrefix "tmp_") same
  simpa only [tmpName, stripPrefix_append, Option.some.injEq] using this

theorem tmpName_ne_partName (id id' : Nat) : tmpName id ≠ partName id' := fun same =>
  not_listedName_tmpName id (same ▸ listedName_partName id')

/-! ## The table directory -/

/-- The directories in the table directory. -/
abbrev TableDir : Type := AList fun _ : String => Directory

namespace TableDir

/-- `create_dir_all`: a directory that exists is left as it is. -/
def createDirAll (disk : TableDir) (name : String) : TableDir :=
  if name ∈ disk then disk else disk.insert name .empty

/-- `rename` of a directory. It fails when there is a directory with files under the new
name. -/
def rename (disk : TableDir) (old new : String) : IoResult TableDir :=
  match disk.lookup old, disk.lookup new with
  | some dir, none => .ok ((disk.erase old).insert new dir)
  | some dir, some target =>
      if target.files.entries.isEmpty then .ok ((disk.erase old).insert new dir)
      else .err directoryNotEmpty
  | none, _ => .err notFound

/-- The number in the name of a part. -/
def partId? (name : String) : Option Int :=
  (stripPrefix "part_" name).bind fun rest =>
    (Decimal.parseInt false 31 rest).map MachineInt.val

/-- The number after the greatest one among the names of parts, as a `u32`. -/
def scanNextPartId (names : List String) : Nat :=
  let maxId := names.foldl (fun (maxId : Int) name =>
    match partId? name with
    | some id => max maxId id
    | none => maxId) (-1)
  (maxId + 1).toNat % 2 ^ 32

theorem partId?_partName {id : Nat} (small : id < 2 ^ 32) :
    partId? (partName id) = some (id : Int) := by
  rw [partId?, partName, stripPrefix_append, Option.bind_some]
  exact parse_padded small

theorem partId?_tmpName (id : Nat) : partId? (tmpName id) = none := by
  have unlisted : ¬ "part_".toList <+: (tmpName id).toList := not_listedName_tmpName id
  rw [partId?, stripPrefix, if_neg unlisted, Option.bind_none]

/-- The name of a file has a dot in it, so it is not that of a part. -/
theorem partId?_text (name : FileName) : partId? name.text = none := by
  have dot : '.' ∈ name.text.toList := by cases name <;> simp [FileName.text]
  rw [partId?, stripPrefix]
  split
  · rename_i front
    obtain ⟨rest, same⟩ := front
    rw [← same, List.mem_append] at dot
    have inside : '.' ∈ (String.ofList rest).toList := by
      simpa using dot.resolve_left (by decide)
    rw [← same, List.drop_left, Option.bind_some,
      Decimal.parseInt_eq_none false 31 inside (by decide) (by decide) (by decide)]
    rfl
  · rfl

/-- Names of which none has a greater number than the bound, which is not the last `u32`, are
followed by a number that none of them has. -/
theorem lt_scanNextPartId {names : List String} {bound : Nat} (room : bound < 2 ^ 32 - 1)
    (below : ∀ name ∈ names, ∀ n, partId? name = some n → n ≤ bound) :
    ∀ name ∈ names, ∀ n, partId? name = some n → n < scanNextPartId names := by
  have folded : ∀ (start : Int), start ≤ bound → -1 ≤ start →
      ∃ maxId : Int, names.foldl (fun (maxId : Int) name =>
        match partId? name with
        | some id => max maxId id
        | none => maxId) start = maxId ∧ start ≤ maxId ∧ maxId ≤ bound ∧
        ∀ name ∈ names, ∀ n, partId? name = some n → n ≤ maxId := by
    induction names with
    | nil => exact fun start small _ => ⟨start, rfl, Int.le_refl _, small, by simp⟩
    | cons name names ih =>
        intro start small least
        have later := ih fun name member => below name (List.mem_cons_of_mem _ member)
        rw [List.foldl_cons]
        cases parsed : partId? name with
        | none =>
            obtain ⟨maxId, folded, up, top, all⟩ := later start small least
            refine ⟨maxId, folded, up, top, fun other member n found => ?_⟩
            rcases List.mem_cons.mp member with rfl | member
            · rw [parsed] at found
              cases found
            · exact all other member n found
        | some id =>
            have first := below name List.mem_cons_self id parsed
            obtain ⟨maxId, folded, up, top, all⟩ :=
              later (max start id) (by omega) (by omega)
            refine ⟨maxId, folded, by omega, top, fun other member n found => ?_⟩
            rcases List.mem_cons.mp member with rfl | member
            · rw [parsed] at found
              cases found
              omega
            · exact all other member n found
  obtain ⟨maxId, folded, up, top, all⟩ := folded (-1) (by omega) (Int.le_refl _)
  intro name member n found
  have here := all name member n found
  simp only [scanNextPartId, folded]
  omega

end TableDir

end TinyOlap.Storage
