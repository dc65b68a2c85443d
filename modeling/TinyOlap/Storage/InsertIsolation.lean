import TinyOlap.Storage.ConcurrentInsert

/-!
# Isolation of concurrent inserts

A call owns its part id from the moment it has reserved it: no other call that is under way
has it, and no part. So only the call itself touches its temporary directory, and when it
renames it, what is in it is what the sequential `writePart` would have written, whatever
another call that was lost in a crash may have left there before (`isolated_of_run`).
-/

set_option autoImplicit false

namespace TinyOlap.Storage

open Library Encoding Catalog Arrow

/-! ## The invariant -/

/-- A call in this stage has a part id and has not let go of it. -/
def Stage.Active : Stage → Prop
  | .createDir | .columns .. | .zoneMap _ | .syncDir | .cleanup => True
  | .start | .returned _ | .lost => False

/-- The part id of a call that is under way, or that has made the part. -/
def Call.Owns (call : Call) (id : Nat) : Prop :=
  call.partId = some id ∧ (call.renamed = true ∨ call.stage.Active)

/-- What the task of a column still has to do is about its two files. If no task has failed,
it leaves the contents of the column in them. -/
def TaskOf (lz4 : Lz4) (dir : Directory) (failed : Bool) (entry : ColumnSchema × ArrayRef)
    (ops : List PartOp) : Prop :=
  (∀ op ∈ ops, op.name = .bin entry.1.name ∨ op.name = .mrk entry.1.name) ∧
    (failed = false → HasColumn lz4 (FileOp.effects dir.contents ops) entry)

/-- How a call that owns a part id has come to its stage. -/
def Call.Working (lz4 : Lz4) (schema : TableSchema) (disk : Disk) (id : Nat) (call : Call) :
    Prop :=
  let columns := schema.columns.zip call.batch.columns
  let checked := checkBatch schema call.batch.toRecordBatch = .ok () ∧ call.renamed = false
  match call.stage with
  | .createDir => checked
  | .columns pending failed => checked ∧ ∃ dir, disk.table.lookup (tmpName id) = some dir ∧
      List.Forall₂ (TaskOf lz4 dir failed) columns pending
  | .zoneMap ops => checked ∧ ∃ dir, disk.table.lookup (tmpName id) = some dir ∧
      (∀ entry ∈ columns, HasColumn lz4 dir.contents entry) ∧
      (∀ op ∈ ops, op.name = .zonemap) ∧
      FileOp.effects dir.contents ops .zonemap =
        some (zoneMapBytes (zoneEntries schema call.batch.toRecordBatch))
  | .cleanup => call.renamed = false
  | _ => True

/-- Part ids stay below `u32::MAX`. -/
def Table.IdsBelow (s : Table) : Prop :=
  ∀ call ∈ s.calls, ∀ id, call.partId = some id → id < 2 ^ 32 - 1

/-- The state of a table: who owns which part id, and what is in the directories. -/
structure Table.Inv (lz4 : Lz4) (schema : TableSchema) (s : Table) : Prop where
  below : ∀ call ∈ s.calls, ∀ id, call.Owns id → ∀ n, s.next = some n → id < n
  idle : s.next = none → ∀ call ∈ s.calls, ¬ call.stage.Active
  owners : ∀ (i j : Nat) (c d : Call) (id : Nat), s.calls[i]? = some c → s.calls[j]? = some d →
    c.Owns id → d.Owns id → i = j
  named : ∀ name dir, s.disk.table.lookup name = some dir →
    (∃ id < 2 ^ 32, name = tmpName id ∧
      ∀ file, (dir.contents file).isSome → PartFile schema file) ∨
    ∃ call ∈ s.calls, ∃ id, call.renamed = true ∧ call.partId = some id ∧ name = partName id
  complete : ∀ call ∈ s.calls, ∀ id, call.renamed = true → call.partId = some id →
    ∃ dir, s.disk.table.lookup (partName id) = some dir ∧
      Complete lz4 schema call.batch dir.contents ∧
      ∀ file, (dir.contents file).isSome → PartFile schema file
  renamed : ∀ call ∈ s.calls, call.renamed = true → call.partId ≠ none
  working : ∀ call ∈ s.calls, ∀ id, call.partId = some id →
    call.Working lz4 schema s.disk id

theorem Table.Inv.fresh (lz4 : Lz4) (schema : TableSchema) (around : Surroundings) :
    (Table.fresh around).Inv lz4 schema := by
  constructor
  · intro call member
    cases member
  · intro _ call member
    cases member
  · intro i j c d id atI
    simp [Table.fresh] at atI
  · intro name dir found
    simp [Table.fresh, Disk.fresh] at found
  · intro call member
    cases member
  · intro call member
    cases member
  · intro call member
    cases member

/-- How a call has come to its stage depends on its own temporary directory only. -/
theorem Call.Working.congr {lz4 : Lz4} {schema : TableSchema} {disk disk' : Disk} {id : Nat}
    {call : Call} (working : call.Working lz4 schema disk id)
    (same : call.stage.Active → disk'.table.lookup (tmpName id) = disk.table.lookup (tmpName id)) :
    call.Working lz4 schema disk' id := by
  unfold Working at *
  cases stage : call.stage with
  | columns pending failed =>
      simp only [stage] at working ⊢
      rw [same (by simp [stage, Stage.Active])]
      exact working
  | zoneMap ops =>
      simp only [stage] at working ⊢
      rw [same (by simp [stage, Stage.Active])]
      exact working
  | start => trivial
  | createDir =>
      simp only [stage] at working ⊢
      exact working
  | syncDir => trivial
  | cleanup =>
      simp only [stage] at working ⊢
      exact working
  | returned result => trivial
  | lost => trivial

/-- At the start the task of a column leaves the contents of the column, whatever was in the
directory. -/
theorem taskOf_columnOps {lz4 : Lz4} {entry : ColumnSchema × ArrayRef} {ops : List PartOp}
    (task : columnOps lz4 entry = .ok ops) (dir : Directory) (failed : Bool) :
    TaskOf lz4 dir failed entry ops :=
  ⟨fun _ member => name_of_mem_columnOps task member,
    fun _ => hasColumn_of_columnOps task dir.contents⟩

/-- A task that goes on leaves the same in the end. -/
theorem TaskOf.perform {lz4 : Lz4} {dir dir' : Directory} {failed : Bool}
    {entry : ColumnSchema × ArrayRef} {op : PartOp} {ops : List PartOp} {chunk : Nat}
    (task : TaskOf lz4 dir failed entry (op :: ops))
    (done : dir.perform (op.begun chunk) = .ok dir') :
    TaskOf lz4 dir' failed entry (op.rest chunk ++ ops) := by
  refine ⟨fun left member => ?_, fun going => ?_⟩
  · rcases List.mem_append.mp member with here | later
    · rw [FileOp.name_of_mem_rest here]
      exact task.1 op List.mem_cons_self
    · exact task.1 left (List.mem_cons_of_mem _ later)
  · rw [Directory.contents_perform done, FileOp.effects_perform]
    exact task.2 going

/-- A task is not disturbed by an operation on other files. -/
theorem TaskOf.other {lz4 : Lz4} {dir dir' : Directory} {failed : Bool}
    {entry : ColumnSchema × ArrayRef} {ops : List PartOp} {op : PartOp}
    (task : TaskOf lz4 dir failed entry ops) (done : dir.perform op = .ok dir')
    (bin : op.name ≠ .bin entry.1.name) (mrk : op.name ≠ .mrk entry.1.name) :
    TaskOf lz4 dir' failed entry ops := by
  have contents := Directory.contents_perform done
  refine ⟨task.1, fun going => (task.2 going).congr ?_ ?_⟩
  · exact FileOp.effects_congr (by rw [contents, FileOp.effect_other bin.symm]) ops
  · exact FileOp.effects_congr (by rw [contents, FileOp.effect_other mrk.symm]) ops

/-- The files after an operation are those before and the one it is about. -/
theorem partFile_perform {schema : TableSchema} {dir dir' : Directory} {op : PartOp}
    (done : dir.perform op = .ok dir')
    (files : ∀ file, (dir.contents file).isSome → PartFile schema file)
    (named : PartFile schema op.name) {file : FileName} (present : (dir'.contents file).isSome) :
    PartFile schema file := by
  by_cases here : file = op.name
  · rw [here]
    exact named
  · rw [Directory.contents_perform done, FileOp.effect_other here] at present
    exact files file present

/-! ## Steps of a call -/

/-- What some call has, some call still has after one of them has changed. -/
theorem exists_mem_set {calls : List Call} {i : Nat} {call call' : Call} {P : Call → Prop}
    (atCall : calls[i]? = some call) (keeps : P call → P call') (found : ∃ c ∈ calls, P c) :
    ∃ c ∈ calls.set i call', P c := by
  obtain ⟨c, member, holds⟩ := found
  obtain ⟨j, atJ⟩ := List.getElem?_of_mem member
  have inside : i < calls.length := (List.getElem?_eq_some_iff.mp atCall).1
  by_cases here : i = j
  · subst here
    rw [atCall] at atJ
    cases atJ
    exact ⟨call', List.mem_of_getElem? (List.getElem?_set_self inside), keeps holds⟩
  · exact ⟨c, List.mem_of_getElem? (by rw [List.getElem?_set_ne here, atJ]), holds⟩

section Update

variable {lz4 : Lz4} {schema : TableSchema} {s : Table}

/-- A temporary directory has files of a part only. -/
theorem Table.Inv.partFile (inv : s.Inv lz4 schema) {id : Nat} {dir : Directory}
    (found : s.disk.table.lookup (tmpName id) = some dir) {file : FileName}
    (present : (dir.contents file).isSome) : PartFile schema file := by
  rcases inv.named _ dir found with ⟨_, _, _, files⟩ | ⟨_, _, id', _, _, same⟩
  · exact files file present
  · exact (tmpName_ne_partName id id' same).elim

variable {i : Nat} {call call' : Call} {disk' : Disk}

/-- An operation that a call can do next. -/
def Call.Next (call : Call) (op : PartOp) : Prop :=
  (∃ (pending : List (List PartOp)) (failed : Bool) (task : Nat) (ops : List PartOp),
    call.stage = .columns pending failed ∧ pending[task]? = some (op :: ops)) ∨
  ∃ ops, call.stage = .zoneMap (op :: ops)

/-- What a call does next is about a file of a part. -/
theorem Table.Inv.partFile_op (inv : s.Inv lz4 schema) (member : call ∈ s.calls) {id : Nat}
    (named : call.partId = some id) {op : PartOp} (next : call.Next op) :
    PartFile schema op.name := by
  have working := inv.working call member id named
  rcases next with ⟨pending, failed, task, ops, begun, here⟩ | ⟨ops, begun⟩
  · simp only [Call.Working, begun] at working
    obtain ⟨_, dir, _, tasks⟩ := working
    obtain ⟨entry, atEntry, taskOf⟩ := exists_of_getElem? tasks here
    exact .inr ⟨entry.1, (List.of_mem_zip (List.mem_of_getElem? atEntry)).1,
      taskOf.1 op List.mem_cons_self⟩
  · simp only [Call.Working, begun] at working
    obtain ⟨_, _, _, _, about, _⟩ := working
    exact .inl (about op List.mem_cons_self)

/-- It is done in the temporary directory of the call. -/
theorem Table.Inv.perform_op (inv : s.Inv lz4 schema) (plain : schema.PlainNames)
    (member : call ∈ s.calls) {id chunk : Nat} (named : call.partId = some id) {op : PartOp}
    (next : call.Next op) (done : s.disk.perform (tmpName id) (op.begun chunk) = .ok disk') :
    ∃ dir dir', s.disk.table.lookup (tmpName id) = some dir ∧
      dir.perform (op.begun chunk) = .ok dir' ∧
      disk' = { s.disk with table := s.disk.table.insert (tmpName id) dir' } := by
  refine Disk.perform_of_plain ?_ done
  rw [FileOp.name_begun]
  exact (inv.partFile_op member named next).plain plain

/-- A step that touches only the temporary directory of its call, and makes no part, keeps
the invariant. -/
theorem Table.Inv.update (inv : s.Inv lz4 schema) (small : s.IdsBelow)
    (atCall : s.calls[i]? = some call) (sameBatch : call'.batch = call.batch)
    (sameId : call'.partId = call.partId) (sameFate : call'.renamed = call.renamed)
    (active : call'.stage.Active → call.stage.Active)
    (others : ∀ name, (∀ id, call.Owns id → name ≠ tmpName id) →
      disk'.table.lookup name = s.disk.table.lookup name)
    (files : ∀ id, call.partId = some id → ∀ dir, disk'.table.lookup (tmpName id) = some dir →
      ∀ file, (dir.contents file).isSome → PartFile schema file)
    (working : ∀ id, call.partId = some id → call'.Working lz4 schema disk' id) :
    Table.Inv lz4 schema ⟨disk', s.next, s.calls.set i call'⟩ := by
  have member := List.mem_of_getElem? atCall
  have owned : ∀ id, call'.Owns id → call.Owns id := fun id owns =>
    ⟨sameId ▸ owns.1, owns.2.imp (fun renamed => sameFate ▸ renamed) active⟩
  have parts : ∀ id, disk'.table.lookup (partName id) = s.disk.table.lookup (partName id) :=
    fun id => others _ fun id' _ same => tmpName_ne_partName id' id same.symm
  have small' : ∀ {c : Call}, c ∈ s.calls → ∀ {id : Nat}, c.partId = some id → id < 2 ^ 32 :=
    fun inside id named => by
      have := small _ inside id named
      omega
  constructor
  · intro c inside id owns n next
    rcases List.mem_or_eq_of_mem_set inside with old | rfl
    · exact inv.below c old id owns n next
    · exact inv.below call member id (owned id owns) n next
  · intro stopped c inside
    rcases List.mem_or_eq_of_mem_set inside with old | rfl
    · exact inv.idle stopped c old
    · exact fun busy => inv.idle stopped call member (active busy)
  · intro j k c d id atJ atK ownsC ownsD
    rcases getElem?_set_cases atJ with ⟨rfl, rfl⟩ | ⟨_, oldC⟩ <;>
      rcases getElem?_set_cases atK with ⟨rfl, rfl⟩ | ⟨_, oldD⟩
    · rfl
    · exact inv.owners _ _ _ _ id atCall oldD (owned id ownsC) ownsD
    · exact inv.owners _ _ _ _ id oldC atCall ownsC (owned id ownsD)
    · exact inv.owners _ _ _ _ id oldC oldD ownsC ownsD
  · intro name dir found
    by_cases own : ∃ id, call.Owns id ∧ name = tmpName id
    · obtain ⟨id, owns, rfl⟩ := own
      exact .inl ⟨id, small' member owns.1, rfl, files id owns.1 dir found⟩
    · rw [others name fun id owns same => own ⟨id, owns, same⟩] at found
      refine (inv.named name dir found).imp_right (exists_mem_set atCall ?_)
      rintro ⟨id, renamed, named, same⟩
      exact ⟨id, sameFate ▸ renamed, sameId ▸ named, same⟩
  · intro c inside id renamed named
    rw [parts id]
    rcases List.mem_or_eq_of_mem_set inside with old | rfl
    · exact inv.complete c old id renamed named
    · rw [sameBatch]
      exact inv.complete call member id (sameFate ▸ renamed) (sameId ▸ named)
  · intro c inside renamed
    rcases List.mem_or_eq_of_mem_set inside with old | rfl
    · exact inv.renamed c old renamed
    · rw [sameId]
      exact inv.renamed call member (sameFate ▸ renamed)
  · intro c inside id named
    obtain ⟨j, atJ⟩ := List.getElem?_of_mem inside
    rcases getElem?_set_cases atJ with ⟨rfl, rfl⟩ | ⟨differ, old⟩
    · exact working id (sameId ▸ named)
    · refine (inv.working c (List.mem_of_getElem? old) id named).congr fun busy => ?_
      refine others _ fun id' owns same => differ ?_
      have sameIds := tmpName_inj (small' (List.mem_of_getElem? old) named)
        (small' member owns.1) same
      exact inv.owners _ _ _ _ id old atCall ⟨named, .inr busy⟩ (sameIds ▸ owns)

/-- Reserving a part id: no call and no part has it. -/
theorem Table.Inv.reserve (inv : s.Inv lz4 schema) {n : Nat} (next : s.next = some n)
    (room : n < 2 ^ 32 - 1) (atCall : s.calls[i]? = some call) (unnamed : call.partId = none)
    (checked : checkBatch schema call.batch.toRecordBatch = .ok ()) :
    Table.Inv lz4 schema ⟨s.disk, some ((n + 1) % 2 ^ 32),
      s.calls.set i { call with partId := some n, stage := .createDir }⟩ := by
  have member := List.mem_of_getElem? atCall
  have wraps : (n + 1) % 2 ^ 32 = n + 1 := Nat.mod_eq_of_lt (by omega)
  have unmade : call.renamed = false := by
    cases made : call.renamed with
    | false => rfl
    | true => exact (inv.renamed call member made unnamed).elim
  have other : ∀ c ∈ s.calls, c.Owns n → False := fun c inside owns =>
    Nat.lt_irrefl n (inv.below c inside n owns n next)
  rw [wraps]
  constructor
  · rintro c inside id owns m ⟨⟩
    rcases List.mem_or_eq_of_mem_set inside with old | rfl
    · exact Nat.lt_succ_of_lt (inv.below c old id owns n next)
    · cases owns.1
      exact Nat.lt_succ_self n
  · rintro ⟨⟩
  · intro j k c d id atJ atK ownsC ownsD
    rcases getElem?_set_cases atJ with ⟨rfl, rfl⟩ | ⟨_, oldC⟩ <;>
      rcases getElem?_set_cases atK with ⟨rfl, rfl⟩ | ⟨_, oldD⟩
    · rfl
    · cases ownsC.1
      exact (other d (List.mem_of_getElem? oldD) ownsD).elim
    · cases ownsD.1
      exact (other c (List.mem_of_getElem? oldC) ownsC).elim
    · exact inv.owners _ _ _ _ id oldC oldD ownsC ownsD
  · intro name dir found
    refine (inv.named name dir found).imp_right (exists_mem_set atCall ?_)
    rintro ⟨id, made, named, same⟩
    rw [unnamed] at named
    cases named
  · intro c inside id made named
    rcases List.mem_or_eq_of_mem_set inside with old | rfl
    · exact inv.complete c old id made named
    · rw [unmade] at made
      cases made
  · intro c inside made
    rcases List.mem_or_eq_of_mem_set inside with old | rfl
    · exact inv.renamed c old made
    · simp
  · intro c inside id named
    rcases List.mem_or_eq_of_mem_set inside with old | rfl
    · exact inv.working c old id named
    · exact ⟨checked, unmade⟩

/-- There is no part with the id of a call that has not made it. -/
theorem Table.Inv.free (inv : s.Inv lz4 schema) (small : s.IdsBelow)
    (atCall : s.calls[i]? = some call) {id : Nat} (owns : call.Owns id)
    (unmade : call.renamed = false) : s.disk.table.lookup (partName id) = none := by
  have bound := small call (List.mem_of_getElem? atCall) id owns.1
  cases there : s.disk.table.lookup (partName id) with
  | none => rfl
  | some target =>
      rcases inv.named _ target there with ⟨id', _, same, _⟩ | ⟨c, inside, id', made, namedC, same⟩
      · exact (tmpName_ne_partName id' id same.symm).elim
      · have bound' := small c inside id' namedC
        obtain rfl : id = id' := partName_inj (by omega) (by omega) same
        obtain ⟨j, atJ⟩ := List.getElem?_of_mem inside
        obtain rfl : j = i := inv.owners _ _ _ _ id atJ atCall ⟨namedC, .inl made⟩ owns
        rw [atCall] at atJ
        cases atJ
        rw [unmade] at made
        cases made

/-- Renaming the directory of a call that has written all its files: there is no part of the
name, and the new one is complete. -/
theorem Table.Inv.rename (inv : s.Inv lz4 schema) (small : s.IdsBelow) (distinct : schema.Distinct)
    (atCall : s.calls[i]? = some call) {id : Nat} (begun : call.stage = .zoneMap [])
    (named : call.partId = some id)
    (done : s.disk.rename (tmpName id) (partName id) = .ok disk') :
    Table.Inv lz4 schema
      ⟨disk', s.next, s.calls.set i { call with renamed := true, stage := .syncDir }⟩ := by
  have member := List.mem_of_getElem? atCall
  have working := inv.working call member id named
  simp only [Call.Working, begun] at working
  obtain ⟨⟨checked, unmade⟩, dir, found, columns, _, zone⟩ := working
  have owns : call.Owns id := ⟨named, .inr (by simp [begun, Stage.Active])⟩
  have small' : ∀ {c : Call}, c ∈ s.calls → ∀ {id : Nat}, c.partId = some id → id < 2 ^ 32 :=
    fun inside id named => by
      have := small _ inside id named
      omega
  have only : ∀ {j : Nat} {c : Call}, s.calls[j]? = some c → c.Owns id → j = i :=
    fun atJ ownsJ => inv.owners _ _ _ _ id atJ atCall ownsJ owns
  have whole : Complete lz4 schema call.batch dir.contents :=
    complete_of_hasColumn dir.possible distinct checked columns zone fun file present =>
      inv.partFile found present
  obtain ⟨dir₁, found₁, _, rfl⟩ := Disk.rename_eq_ok done
  cases found.symm.trans found₁
  have kept : ∀ name, name ≠ tmpName id → name ≠ partName id →
      ((s.disk.table.erase (tmpName id)).insert (partName id) dir).lookup name =
        s.disk.table.lookup name := by
    intro name notTmp notPart
    rw [AList.lookup_insert_ne notPart, AList.lookup_erase_ne notTmp]
  have owned : ∀ id', { call with renamed := true, stage := Stage.syncDir : Call }.Owns id' →
      call.Owns id' := by
    intro id' owns'
    exact ⟨owns'.1, .inr (by simp [begun, Stage.Active])⟩
  constructor
  · intro c inside id' owns' n next
    rcases List.mem_or_eq_of_mem_set inside with old | rfl
    · exact inv.below c old id' owns' n next
    · exact inv.below call member id' (owned id' owns') n next
  · intro stopped c inside
    exact (inv.idle stopped call member (by simp [begun, Stage.Active])).elim
  · intro j k c d id' atJ atK ownsC ownsD
    rcases getElem?_set_cases atJ with ⟨rfl, rfl⟩ | ⟨_, oldC⟩ <;>
      rcases getElem?_set_cases atK with ⟨rfl, rfl⟩ | ⟨_, oldD⟩
    · rfl
    · exact inv.owners _ _ _ _ id' atCall oldD (owned id' ownsC) ownsD
    · exact inv.owners _ _ _ _ id' oldC atCall ownsC (owned id' ownsD)
    · exact inv.owners _ _ _ _ id' oldC oldD ownsC ownsD
  · intro name dir' there
    by_cases here : name = partName id
    · exact .inr ⟨_, List.mem_of_getElem? (List.getElem?_set_self
        (List.getElem?_eq_some_iff.mp atCall).1), id, rfl, named, here⟩
    · rw [AList.lookup_insert_ne here] at there
      have notTmp : name ≠ tmpName id := by
        rintro rfl
        rw [AList.lookup_erase] at there
        cases there
      rw [AList.lookup_erase_ne notTmp] at there
      refine (inv.named name dir' there).imp_right (exists_mem_set atCall ?_)
      rintro ⟨id', made, namedC, same⟩
      exact ⟨id', rfl, namedC, same⟩
  · intro c inside id' made namedC
    obtain ⟨j, atJ⟩ := List.getElem?_of_mem inside
    rcases getElem?_set_cases atJ with ⟨rfl, rfl⟩ | ⟨differ, old⟩
    · cases named.symm.trans namedC
      exact ⟨dir, AList.lookup_insert _, whole, fun file present => inv.partFile found present⟩
    · have inside' := List.mem_of_getElem? old
      rw [kept _ (fun same => tmpName_ne_partName id id' same.symm) fun same => differ ?_]
      · exact inv.complete c inside' id' made namedC
      · have sameIds := partName_inj (small' inside' namedC) (small' member named) same
        exact only old (sameIds ▸ ⟨namedC, .inl made⟩)
  · intro c inside made
    rcases List.mem_or_eq_of_mem_set inside with old | rfl
    · exact inv.renamed c old made
    · simp [named]
  · intro c inside id' namedC
    obtain ⟨j, atJ⟩ := List.getElem?_of_mem inside
    rcases getElem?_set_cases atJ with ⟨rfl, rfl⟩ | ⟨differ, old⟩
    · trivial
    · have inside' := List.mem_of_getElem? old
      refine (inv.working c inside' id' namedC).congr fun busy => ?_
      refine kept _ (fun same => differ ?_) (tmpName_ne_partName id' id)
      have sameIds := tmpName_inj (small' inside' namedC) (small' member named) same
      exact only old (sameIds ▸ ⟨namedC, .inr busy⟩)

/-- **A step of a call keeps the invariant.** -/
theorem Table.Inv.moves (inv : s.Inv lz4 schema) (small : s.IdsBelow) (distinct : schema.Distinct)
    (plain : schema.PlainNames) {n n' : Nat} (next : s.next = some n)
    (atCall : s.calls[i]? = some call)
    (moves : Call.Moves lz4 schema s.disk n call disk' n' call')
    (small' : Table.IdsBelow ⟨disk', some n', s.calls.set i call'⟩) :
    Table.Inv lz4 schema ⟨disk', some n', s.calls.set i call'⟩ := by
  have member := List.mem_of_getElem? atCall
  have still : ∀ name, (∀ id, call.Owns id → name ≠ tmpName id) →
      s.disk.table.lookup name = s.disk.table.lookup name := fun _ _ => rfl
  have files : ∀ id, call.partId = some id → ∀ dir, s.disk.table.lookup (tmpName id) = some dir →
      ∀ file, (dir.contents file).isSome → PartFile schema file :=
    fun id _ dir found file present => inv.partFile found present
  have touched : ∀ {id : Nat} (dir' : Directory), call.partId = some id → call.stage.Active →
      ∀ name, (∀ id, call.Owns id → name ≠ tmpName id) →
        (s.disk.table.insert (tmpName id) dir').lookup name = s.disk.table.lookup name :=
    fun dir' named busy name other => AList.lookup_insert_ne (other _ ⟨named, .inr busy⟩)
  have replaced : ∀ {id : Nat} {dir' : Directory}, call.partId = some id →
      (∀ file, (dir'.contents file).isSome → PartFile schema file) → ∀ id', call.partId = some id' →
      ∀ dir, (s.disk.table.insert (tmpName id) dir').lookup (tmpName id') = some dir →
      ∀ file, (dir.contents file).isSome → PartFile schema file := by
    intro id dir' named new id' named' dir found
    cases named.symm.trans named'
    rw [AList.lookup_insert] at found
    cases found
    exact new
  cases moves with
  | reserve begun unnamed checked =>
      refine inv.reserve next ?_ atCall unnamed checked
      exact small' _ (List.mem_of_getElem? (List.getElem?_set_self
        (List.getElem?_eq_some_iff.mp atCall).1)) n rfl
  | makeDir id pending begun named tasks =>
      have busy : call.stage.Active := by simp [begun, Stage.Active]
      have working := inv.working call member id named
      simp only [Call.Working, begun] at working
      have made : ∃ dir,
          (s.disk.createDirAll (tmpName id)).table.lookup (tmpName id) = some dir ∧
          ∀ file, (dir.contents file).isSome → PartFile schema file := by
        unfold Disk.createDirAll TableDir.createDirAll
        split
        · rename_i there
          obtain ⟨dir, found⟩ := Option.isSome_iff_exists.mp (AList.lookup_isSome.mpr there)
          exact ⟨dir, found, fun file present => inv.partFile found present⟩
        · exact ⟨.empty, AList.lookup_insert _, by simp [Directory.contents, Directory.empty]⟩
      obtain ⟨dir, found, new⟩ := made
      rw [← next]
      refine inv.update small atCall rfl rfl rfl (fun _ => busy) ?_ ?_ ?_
      · exact fun name other =>
          (Disk.createDirAll_spec ..).1.lookup name (other id ⟨named, .inr busy⟩)
      · intro id' named' dir' found'
        cases named.symm.trans named'
        cases found.symm.trans found'
        exact new
      · intro id' named'
        cases named.symm.trans named'
        refine ⟨working, dir, found, ?_⟩
        exact (partTasks_eq_ok tasks).imp fun entry ops task => taskOf_columnOps task dir false
  | column id task chunk pending failed op ops disk' begun named here done =>
      have busy : call.stage.Active := by simp [begun, Stage.Active]
      have working := inv.working call member id named
      simp only [Call.Working, begun] at working
      obtain ⟨checked, dir, found, tasks⟩ := working
      have partFile := inv.partFile_op member named (.inl ⟨_, _, _, _, begun, here⟩)
      obtain ⟨dir', dir'', found', performed, rfl⟩ :=
        inv.perform_op plain member named (.inl ⟨_, _, _, _, begun, here⟩) done
      cases found.symm.trans found'
      have names := zip_names_nodup distinct (checkBatch_eq_ok checked.1)
      -- the task that goes on, and the others
      have tasks' : List.Forall₂ (TaskOf lz4 dir'' failed) (schema.columns.zip call.batch.columns)
          (pending.set task (op.rest chunk ++ ops)) := by
        refine forall₂_set tasks (fun entry ops' _ atOps taskOf => ?_)
          fun j entry ops' differ atEntry atOps taskOf => ?_
        · cases here.symm.trans atOps
          exact taskOf.perform performed
        · obtain ⟨entry', atEntry', taskOf'⟩ := exists_of_getElem? tasks here
          have otherName : entry'.1.name ≠ entry.1.name := fun same => differ
            (index_eq_of_nodup names atEntry atEntry' same.symm)
          have opName := taskOf'.1 op List.mem_cons_self
          refine taskOf.other performed ?_ ?_ <;> rw [FileOp.name_begun] <;>
            rcases opName with own | own <;> rw [own] <;> simp [otherName]
      rw [← next]
      refine inv.update small atCall rfl rfl rfl (fun _ => busy) (touched dir'' named busy)
        (replaced named fun file => partFile_perform performed
          (fun file present => inv.partFile found present) (by simpa using partFile)) ?_
      intro id' named'
      cases named.symm.trans named'
      exact ⟨checked, dir'', AList.lookup_insert _, tasks'⟩
  | giveUp task pending failed begun =>
      have busy : call.stage.Active := by simp [begun, Stage.Active]
      rw [← next]
      refine inv.update small atCall rfl rfl rfl (fun _ => busy) still files fun id named => ?_
      have working := inv.working call member id named
      simp only [Call.Working, begun] at working
      obtain ⟨checked, dir, found, tasks⟩ := working
      refine ⟨checked, dir, found, forall₂_set tasks ?_ ?_⟩
      · intro entry ops _ _ _
        exact ⟨by simp, by simp⟩
      · intro j entry ops _ _ _ taskOf
        exact ⟨taskOf.1, by simp⟩
  | collect pending begun ended =>
      have busy : call.stage.Active := by simp [begun, Stage.Active]
      rw [← next]
      refine inv.update small atCall rfl rfl rfl (fun _ => busy) still files fun id named => ?_
      have working := inv.working call member id named
      simp only [Call.Working, begun] at working
      obtain ⟨checked, dir, found, tasks⟩ := working
      refine ⟨checked, dir, found, fun entry inside => ?_, by simp [zoneMapOps, FileOp.name], ?_⟩
      · obtain ⟨ops, there, taskOf⟩ := exists_of_mem_left tasks inside
        have left := taskOf.2 rfl
        rwa [ended ops there] at left
      · simp [zoneMapOps, FileOp.effects, FileOp.effect, FileOp.put]
  | zoneMap id chunk op ops disk' begun named done =>
      have busy : call.stage.Active := by simp [begun, Stage.Active]
      have working := inv.working call member id named
      simp only [Call.Working, begun] at working
      obtain ⟨checked, dir, found, columns, about, zone⟩ := working
      obtain ⟨dir', dir'', found', performed, rfl⟩ :=
        inv.perform_op plain member named (.inr ⟨_, begun⟩) done
      cases found.symm.trans found'
      have zonemap : (op.begun chunk).name = .zonemap :=
        (FileOp.name_begun op chunk).trans (about op List.mem_cons_self)
      have contents := Directory.contents_perform performed
      have unchanged : ∀ file, file ≠ .zonemap → dir''.contents file = dir.contents file := by
        intro file other
        rw [contents, FileOp.effect_other (by rwa [zonemap])]
      rw [← next]
      refine inv.update small atCall rfl rfl rfl (fun _ => busy) (touched dir'' named busy)
        (replaced named fun file => partFile_perform performed
          (fun file present => inv.partFile found present) (.inl zonemap)) ?_
      intro id' named'
      cases named.symm.trans named'
      refine ⟨checked, dir'', AList.lookup_insert _, fun entry inside => ?_, fun left inside => ?_,
        ?_⟩
      · exact (columns entry inside).congr (unchanged _ (by simp)) (unchanged _ (by simp))
      · rcases List.mem_append.mp inside with here | later
        · rw [FileOp.name_of_mem_rest here]
          exact about op List.mem_cons_self
        · exact about left (List.mem_cons_of_mem _ later)
      · rw [contents, FileOp.effects_perform]
        exact zone
  | rename id disk' begun named done =>
      rw [← next]
      exact inv.rename small distinct atCall begun named done
  | fail begun =>
      have busy : call.stage.Active := by
        rcases begun with ⟨pending, failed, begun⟩ | ⟨ops, begun⟩ <;> simp [begun, Stage.Active]
      rw [← next]
      refine inv.update small atCall rfl rfl rfl (fun _ => busy) still files fun id named => ?_
      have working := inv.working call member id named
      rcases begun with ⟨pending, failed, begun⟩ | ⟨ops, begun⟩
      · simp only [Call.Working, begun] at working
        exact working.1.2
      · simp only [Call.Working, begun] at working
        exact working.1.2
  | removeFile id name dir begun named present =>
      have busy : call.stage.Active := by simp [begun, Stage.Active]
      rw [← next]
      refine inv.update small atCall rfl rfl rfl (fun _ => busy) (touched _ named busy)
        (replaced named fun file there => ?_) fun id' named' => ?_
      · obtain ⟨bytes, found⟩ := Option.isSome_iff_exists.mp there
        have before := Directory.contents_remove found
        exact inv.partFile present (by rw [before]; rfl)
      · have working := inv.working call member id' named'
        simpa only [Call.Working, begun] using working
  | removeDir id begun named =>
      have busy : call.stage.Active := by simp [begun, Stage.Active]
      rw [← next]
      refine inv.update small atCall rfl rfl rfl (fun _ => busy) (fun name other => ?_)
        (fun id' named' dir found => ?_) fun id' named' => ?_
      · exact AList.lookup_erase_ne (other id ⟨named, .inr busy⟩)
      · cases named.symm.trans named'
        cases (AList.lookup_erase (tmpName id) s.disk.table).symm.trans found
      · have working := inv.working call member id' named'
        simpa only [Call.Working, begun] using working
  | quit begun =>
      rw [← next]
      exact inv.update small atCall rfl rfl rfl (fun busy => busy.elim) still files
        fun id named => trivial
  | sync id ok begun named =>
      rw [← next]
      exact inv.update small atCall rfl rfl rfl (fun busy => busy.elim) still files
        fun id named => trivial

/-- A step of a call leaves the listed directories alone, or adds the part of the call. -/
theorem Table.Inv.moves_listed (inv : s.Inv lz4 schema) (small : s.IdsBelow)
    (plain : schema.PlainNames) {n n' : Nat} (atCall : s.calls[i]? = some call)
    (moves : Call.Moves lz4 schema s.disk n call disk' n' call') :
    (call'.renamed = call.renamed ∧
      (call.stage ≠ .syncDir → call'.stage ≠ .syncDir ∧ ∀ m, call'.stage ≠ .returned (some m)) ∧
      ∀ name, ListedName name → disk'.table.lookup name = s.disk.table.lookup name) ∨
    ∃ id, call.renamed = false ∧ call.partId = some id ∧
      call' = { call with renamed := true, stage := .syncDir } ∧
      s.disk.table.lookup (partName id) = none ∧
      ∀ name, ListedName name → name ≠ partName id →
        disk'.table.lookup name = s.disk.table.lookup name := by
  have member := List.mem_of_getElem? atCall
  have notTmp : ∀ {name : String}, ListedName name → ∀ id, name ≠ tmpName id :=
    fun listed id same => not_listedName_tmpName id (same ▸ listed)
  cases moves with
  | reserve begun unnamed checked => exact .inl ⟨rfl, by simp, fun _ _ => rfl⟩
  | makeDir id pending begun named tasks =>
      exact .inl ⟨rfl, by simp, fun name listed =>
        (Disk.createDirAll_spec ..).1.lookup name (notTmp listed id)⟩
  | column id task chunk pending failed op ops disk' begun named here done =>
      obtain ⟨_, _, _, _, rfl⟩ :=
        inv.perform_op plain member named (.inl ⟨_, _, _, _, begun, here⟩) done
      exact .inl ⟨rfl, by simp, fun _ listed => AList.lookup_insert_ne (notTmp listed id)⟩
  | giveUp task pending failed begun => exact .inl ⟨rfl, by simp, fun _ _ => rfl⟩
  | collect pending begun ended => exact .inl ⟨rfl, by simp, fun _ _ => rfl⟩
  | zoneMap id chunk op ops disk' begun named done =>
      obtain ⟨_, _, _, _, rfl⟩ := inv.perform_op plain member named (.inr ⟨_, begun⟩) done
      exact .inl ⟨rfl, by simp, fun _ listed => AList.lookup_insert_ne (notTmp listed id)⟩
  | rename id disk' begun named done =>
      have working := inv.working call member id named
      simp only [Call.Working, begun] at working
      have free := inv.free small atCall ⟨named, .inr (by simp [begun, Stage.Active])⟩ working.1.2
      refine .inr ⟨id, working.1.2, named, rfl, free, fun name listed differ => ?_⟩
      obtain ⟨_, _, _, rfl⟩ := Disk.rename_eq_ok done
      rw [AList.lookup_insert_ne differ, AList.lookup_erase_ne (notTmp listed id)]
  | fail begun => exact .inl ⟨rfl, by simp, fun _ _ => rfl⟩
  | removeFile id file dir₁ begun named present =>
      exact .inl ⟨rfl, by simp [begun], fun _ listed => AList.lookup_insert_ne (notTmp listed id)⟩
  | removeDir id begun named =>
      exact .inl ⟨rfl, by simp [begun], fun _ listed => AList.lookup_erase_ne (notTmp listed id)⟩
  | quit begun => exact .inl ⟨rfl, by simp, fun _ _ => rfl⟩
  | sync id ok begun named =>
      exact .inl ⟨rfl, fun going => (going begun).elim, fun _ _ => rfl⟩

/-- No step of a call touches a part that is there. -/
theorem Table.Inv.moves_part (inv : s.Inv lz4 schema) (small : s.IdsBelow)
    (plain : schema.PlainNames) {n n' : Nat} (atCall : s.calls[i]? = some call)
    (moves : Call.Moves lz4 schema s.disk n call disk' n' call')
    {name : String} (listed : ListedName name) {dir : Directory}
    (found : s.disk.table.lookup name = some dir) : disk'.table.lookup name = some dir := by
  rcases inv.moves_listed small plain atCall moves with ⟨_, _, same⟩ | ⟨id, _, _, _, free, others⟩
  · rw [same name listed, found]
  · refine (others name listed ?_).trans found
    rintro rfl
    rw [free] at found
    cases found

end Update

/-! ## Steps of a table -/

section Steps

variable {lz4 : Lz4} {schema : TableSchema} {s s' : Table}

/-- A call keeps its part id. -/
theorem Call.Moves.partId {disk disk' : Disk} {n n' : Nat} {call call' : Call}
    (moves : Call.Moves lz4 schema disk n call disk' n' call') {id : Nat}
    (named : call.partId = some id) : call'.partId = some id := by
  cases moves with
  | reserve begun unnamed checked =>
      rw [unnamed] at named
      cases named
  | _ => exact named

/-- A call keeps its batch. -/
theorem Call.Moves.batch {disk disk' : Disk} {n n' : Nat} {call call' : Call}
    (moves : Call.Moves lz4 schema disk n call disk' n' call') : call'.batch = call.batch := by
  cases moves <;> rfl

@[simp] theorem Call.lose_partId (call : Call) : call.lose.partId = call.partId := by
  unfold Call.lose
  split <;> rfl

@[simp] theorem Call.lose_renamed (call : Call) : call.lose.renamed = call.renamed := by
  unfold Call.lose
  split <;> rfl

@[simp] theorem Call.lose_batch (call : Call) : call.lose.batch = call.batch := by
  unfold Call.lose
  split <;> rfl

/-- Nothing is under way after a crash. -/
theorem Call.not_active_lose (call : Call) : ¬ call.lose.stage.Active := by
  unfold Call.lose
  split
  · rename_i result returned
    rw [returned]
    exact fun busy => busy
  · exact fun busy => busy

/-- An event of a table, and what it does. -/
theorem Table.step_cases {event : TableEvent} (steps : s.step lz4 schema event = some s') :
    (event = .open ∧ s.next = none ∧
      s' = { s with next := some (TableDir.scanNextPartId s.disk.entries) }) ∨
    (∃ batch, event = .insert batch ∧ s.next ≠ none ∧
      s' = { s with calls := s.calls ++ [⟨batch, none, false, .start⟩] }) ∨
    (∃ i what n call disk' n' call', event = .call i what ∧ s.next = some n ∧
      s.calls[i]? = some call ∧
      call.step lz4 schema s.disk n what = some (disk', n', call') ∧
      s' = ⟨disk', some n', s.calls.set i call'⟩) ∨
    (event = .crash ∧ s' = { s with next := none, calls := s.calls.map Call.lose }) := by
  cases event with
  | «open» =>
      simp only [Table.step] at steps
      split at steps
      · cases steps
        exact .inl ⟨rfl, ‹_›, rfl⟩
      · cases steps
  | insert batch =>
      simp only [Table.step] at steps
      split at steps
      · rename_i next
        cases steps
        exact .inr (.inl ⟨batch, rfl, by simp [next], rfl⟩)
      · cases steps
  | call i what =>
      simp only [Table.step] at steps
      split at steps
      · rename_i n call next atCall
        obtain ⟨⟨disk', n', call'⟩, stepped, same⟩ := Option.map_eq_some_iff.mp steps
        cases same
        exact .inr (.inr (.inl
          ⟨i, what, n, call, disk', n', call', rfl, next, atCall, stepped, rfl⟩))
      · cases steps
  | crash =>
      simp only [Table.step] at steps
      split at steps
      · cases steps
        exact .inr (.inr (.inr ⟨rfl, rfl⟩))
      · cases steps

/-- Earlier part ids are among the later ones. -/
theorem Table.IdsBelow.of_step {event : TableEvent} (steps : s.step lz4 schema event = some s')
    (small : s'.IdsBelow) : s.IdsBelow := by
  intro c member id named
  rcases Table.step_cases steps with ⟨_, _, rfl⟩ | ⟨batch, _, _, rfl⟩ |
    ⟨i, what, n, call, disk', n', call', _, _, atCall, stepped, rfl⟩ | ⟨_, rfl⟩
  · exact small c member id named
  · exact small c (List.mem_append_left _ member) id named
  · have keeps : call.partId = some id → call'.partId = some id :=
      fun here => (Call.moves_of_step stepped).partId here
    obtain ⟨c', inside, named'⟩ := exists_mem_set (P := fun c => c.partId = some id) atCall keeps
      ⟨c, member, named⟩
    exact small c' inside id named'
  · exact small c.lose (List.mem_map_of_mem member) id (by simpa using named)

/-- **Every event keeps the invariant.** -/
theorem Table.Inv.step {event : TableEvent} (inv : s.Inv lz4 schema) (distinct : schema.Distinct)
    (plain : schema.PlainNames) (steps : s.step lz4 schema event = some s')
    (small : s'.IdsBelow) : s'.Inv lz4 schema := by
  have small' := Table.IdsBelow.of_step steps small
  rcases Table.step_cases steps with ⟨_, closed, rfl⟩ | ⟨batch, _, _, rfl⟩ |
    ⟨i, what, n, call, disk', n', call', _, next, atCall, stepped, rfl⟩ | ⟨_, rfl⟩
  · refine ⟨?_, nofun, inv.owners, inv.named, inv.complete, inv.renamed, inv.working⟩
    rintro c member id owns n ⟨⟩
    have made : c.renamed = true := owns.2.resolve_right (inv.idle closed c member)
    obtain ⟨dir, found, _⟩ := inv.complete c member id made owns.1
    have bound := small' c member id owns.1
    have listed := @TableDir.lt_scanNextPartId s.disk.entries (2 ^ 32 - 2) (by omega)
      ?_ (partName id) (List.mem_append_left _
        (AList.mem_keys.mp (AList.lookup_isSome.mp (by rw [found]; rfl)))) id
      (TableDir.partId?_partName (by omega))
    · omega
    · intro name listed m parsed
      rcases List.mem_append.mp listed with inside | file
      swap
      · obtain ⟨other, _, rfl⟩ := List.mem_map.mp file
        rw [TableDir.partId?_text] at parsed
        cases parsed
      obtain ⟨dir', found'⟩ := Option.isSome_iff_exists.mp
        (AList.lookup_isSome.mpr (AList.mem_keys.mpr inside))
      rcases inv.named name dir' found' with ⟨id', _, rfl, _⟩ | ⟨c', there, id', _, named, rfl⟩
      · rw [TableDir.partId?_tmpName] at parsed
        cases parsed
      · have bound' := small' c' there id' named
        rw [TableDir.partId?_partName (by omega)] at parsed
        cases parsed
        omega
  · have old : ∀ c ∈ s.calls ++ [⟨batch, none, false, .start⟩], c ∈ s.calls ∨ c.partId = none := by
      intro c member
      rcases List.mem_append.mp member with inside | new
      · exact .inl inside
      · rw [List.mem_singleton.mp new]
        exact .inr rfl
    constructor
    · intro c member id owns
      rcases old c member with inside | unnamed
      · exact inv.below c inside id owns
      · cases unnamed.symm.trans owns.1
    · intro closed c member
      rcases List.mem_append.mp member with inside | new
      · exact inv.idle closed c inside
      · rw [List.mem_singleton.mp new]
        exact fun busy => busy
    · intro j k c d id atJ atK ownsC ownsD
      have before : ∀ {m : Nat} {e : Call},
          (s.calls ++ [⟨batch, none, false, .start⟩])[m]? = some e →
          e.Owns id → s.calls[m]? = some e := by
        intro m e atM owns
        rw [List.getElem?_append] at atM
        split at atM
        · exact atM
        · rw [List.mem_singleton.mp (List.mem_of_getElem? atM)] at owns
          cases owns.1
      exact inv.owners j k c d id (before atJ ownsC) (before atK ownsD) ownsC ownsD
    · intro name dir found
      refine (inv.named name dir found).imp_right ?_
      rintro ⟨c, member, rest⟩
      exact ⟨c, List.mem_append_left _ member, rest⟩
    · intro c member id made named
      rcases old c member with inside | unnamed
      · exact inv.complete c inside id made named
      · rw [unnamed] at named
        cases named
    · intro c member made
      rcases List.mem_append.mp member with inside | new
      · exact inv.renamed c inside made
      · rw [List.mem_singleton.mp new] at made
        cases made
    · intro c member id named
      rcases old c member with inside | unnamed
      · exact inv.working c inside id named
      · rw [unnamed] at named
        cases named
  · exact inv.moves small' distinct plain next atCall (Call.moves_of_step stepped) small
  · have owned : ∀ {c : Call} {id : Nat}, c.lose.Owns id → c.Owns id := fun owns =>
      ⟨by simpa using owns.1, .inl (by simpa using owns.2.resolve_right (Call.not_active_lose _))⟩
    have source : ∀ {j : Nat} {c : Call}, (s.calls.map Call.lose)[j]? = some c →
        ∃ c', s.calls[j]? = some c' ∧ c = c'.lose := by
      intro j c atJ
      rw [List.getElem?_map] at atJ
      obtain ⟨c', here, same⟩ := Option.map_eq_some_iff.mp atJ
      exact ⟨c', here, same.symm⟩
    constructor
    · intro c member id owns n closed
      cases closed
    · intro _ c member
      obtain ⟨c', _, rfl⟩ := List.mem_map.mp member
      exact Call.not_active_lose c'
    · intro j k c d id atJ atK ownsC ownsD
      obtain ⟨c', hereC, rfl⟩ := source atJ
      obtain ⟨d', hereD, rfl⟩ := source atK
      exact inv.owners j k c' d' id hereC hereD (owned ownsC) (owned ownsD)
    · intro name dir found
      refine (inv.named name dir found).imp_right ?_
      rintro ⟨c, member, id, made, named, same⟩
      exact ⟨c.lose, List.mem_map_of_mem member, id, by simpa using made,
        by simpa using named, same⟩
    · intro c member id made named
      obtain ⟨c', inside, rfl⟩ := List.mem_map.mp member
      rw [Call.lose_batch]
      exact inv.complete c' inside id (by simpa using made) (by simpa using named)
    · intro c member made
      obtain ⟨c', inside, rfl⟩ := List.mem_map.mp member
      rw [Call.lose_partId]
      exact inv.renamed c' inside (by simpa using made)
    · intro c member id named
      obtain ⟨c', inside, rfl⟩ := List.mem_map.mp member
      unfold Call.Working
      have idle := Call.not_active_lose c'
      cases stage : c'.lose.stage with
      | start => trivial
      | createDir => exact (idle (by simp [stage, Stage.Active])).elim
      | columns pending failed => exact (idle (by simp [stage, Stage.Active])).elim
      | zoneMap ops => exact (idle (by simp [stage, Stage.Active])).elim
      | syncDir => trivial
      | cleanup => exact (idle (by simp [stage, Stage.Active])).elim
      | returned result => trivial
      | lost => trivial

end Steps


/-! ## Runs -/

section Runs

variable {lz4 : Lz4} {schema : TableSchema} {s s' : Table} {events : List TableEvent}

theorem Table.IdsBelow.of_run (ran : s.run lz4 schema events = some s') (small : s'.IdsBelow) :
    s.IdsBelow := by
  induction events generalizing s with
  | nil =>
      cases ran
      exact small
  | cons event rest ih =>
      obtain ⟨between, steps, ran⟩ := Option.bind_eq_some_iff.mp ran
      exact .of_step steps (ih ran)

/-- What every event keeps holds of every run. -/
theorem Table.Inv.run (inv : s.Inv lz4 schema) (distinct : schema.Distinct)
    (plain : schema.PlainNames) (ran : s.run lz4 schema events = some s')
    (small : s'.IdsBelow) : s'.Inv lz4 schema := by
  induction events generalizing s with
  | nil =>
      cases ran
      exact inv
  | cons event rest ih =>
      obtain ⟨between, steps, ran⟩ := Option.bind_eq_some_iff.mp ran
      exact ih (inv.step distinct plain steps (.of_run ran small)) ran

/-- Once there, a part stays as it is. -/
theorem Table.Inv.run_part (inv : s.Inv lz4 schema) (distinct : schema.Distinct)
    (plain : schema.PlainNames) (ran : s.run lz4 schema events = some s') (small : s'.IdsBelow)
    {name : String} (listed : ListedName name) {dir : Directory}
    (found : s.disk.table.lookup name = some dir) : s'.disk.table.lookup name = some dir := by
  induction events generalizing s with
  | nil =>
      cases ran
      exact found
  | cons event rest ih =>
      obtain ⟨between, steps, ran⟩ := Option.bind_eq_some_iff.mp ran
      have smallBetween : between.IdsBelow := .of_run ran small
      refine ih (inv.step distinct plain steps smallBetween) ran ?_
      rcases Table.step_cases steps with ⟨_, _, rfl⟩ | ⟨_, _, _, rfl⟩ |
        ⟨i, what, n, call, disk', n', call', _, _, atCall, stepped, rfl⟩ | ⟨_, rfl⟩
      · exact found
      · exact found
      · exact inv.moves_part (.of_step steps smallBetween) plain atCall (Call.moves_of_step stepped)
          listed found
      · exact found

theorem Disk.mem_listed {disk : Disk} {name : String} :
    name ∈ disk.listed ↔ (∃ dir, disk.table.lookup name = some dir) ∧ ListedName name := by
  rw [Disk.listed, List.mem_filter, List.mem_reverse, ← AList.mem_keys, ← AList.lookup_isSome,
    Option.isSome_iff_exists, decide_eq_true_eq]

/-- **Inserts are atomic and isolated**, if no column name has a slash. Whatever the calls, their
order, their failures and the crashes of the process: the parts that a query lists are those of
the calls that have renamed theirs, no two of these have the same part id, each is what the batch
of its call alone is written as, and no later event changes it. -/
theorem isolated_of_run (distinct : schema.Distinct) (plain : schema.PlainNames)
    {around : Surroundings} (ran : (Table.fresh around).run lz4 schema events = some s)
    (small : s.IdsBelow) :
    (∀ name, name ∈ s.disk.listed ↔
      ∃ call ∈ s.calls, ∃ id, call.renamed = true ∧ call.partId = some id ∧ name = partName id) ∧
    (∀ (i j : Nat) (c d : Call) (id : Nat), s.calls[i]? = some c → s.calls[j]? = some d →
      c.renamed = true → d.renamed = true → c.partId = some id → d.partId = some id → i = j) ∧
    (∀ call ∈ s.calls, ∀ id, call.renamed = true → call.partId = some id →
      writePart lz4 schema call.batch.toRecordBatch = .ok (s.disk.part schema (partName id)) ∧
        WrittenPart lz4 schema call.batch.toRecordBatch (s.disk.part schema (partName id))) ∧
    ∀ more s', s.run lz4 schema more = some s' → s'.IdsBelow → ∀ name ∈ s.disk.listed,
      name ∈ s'.disk.listed ∧ s'.disk.part schema name = s.disk.part schema name := by
  have inv : s.Inv lz4 schema :=
    (Table.Inv.fresh lz4 schema around).run distinct plain ran small
  refine ⟨fun name => ⟨fun present => ?_, ?_⟩, ?_, ?_, ?_⟩
  · obtain ⟨⟨dir, found⟩, listed⟩ := Disk.mem_listed.mp present
    rcases inv.named name dir found with ⟨id, _, rfl, _⟩ | made
    · exact (not_listedName_tmpName id listed).elim
    · exact made
  · rintro ⟨call, member, id, made, named, rfl⟩
    obtain ⟨dir, found, _⟩ := inv.complete call member id made named
    exact Disk.mem_listed.mpr ⟨⟨dir, found⟩, listedName_partName id⟩
  · intro i j c d id atI atJ madeC madeD namedC namedD
    exact inv.owners i j c d id atI atJ ⟨namedC, .inl madeC⟩ ⟨namedD, .inl madeD⟩
  · intro call member id made named
    obtain ⟨dir, found, whole, files⟩ := inv.complete call member id made named
    rw [Disk.part_eq_contents plain found files]
    exact ⟨whole.2, whole.written distinct⟩
  · intro more s' ran' small' name present
    obtain ⟨⟨dir, found⟩, listed⟩ := Disk.mem_listed.mp present
    have kept := inv.run_part distinct plain ran' small' listed found
    exact ⟨Disk.mem_listed.mpr ⟨⟨dir, kept⟩, listed⟩,
      Disk.part_congr plain (kept.trans found.symm)⟩

end Runs

/-! ## A crash in the middle of an insert -/

/-- A table with one column. -/
def markSchema : TableSchema := ⟨"t", [⟨"m", .bool⟩]⟩

/-- A batch of one row. -/
def oneMark : InsertBatch where
  fields := [⟨"m", .data .bool⟩]
  columns := [⟨.data .bool, [true]⟩]
  numRows := 1
  typed := rfl
  lengths := by decide
  offsets := by decide

/-- A call that writes all files of its only column and the zone map, and renames its
directory. -/
def wholeInsert (batch : InsertBatch) (i : Nat) : List TableEvent :=
  [.insert batch, .call i .reserve, .call i (.createDir true)] ++
    List.replicate 6 (.call i (.column 0 100)) ++
    [.call i .collect, .call i (.zoneMap 0), .call i (.zoneMap 100), .call i (.zoneMap 0),
      .call i (.rename true)]

/-- The process crashes when a call has written three bytes. The next process hands out the
same part id, and the next call uses the directory that is left. -/
def crashThenInsert : List TableEvent :=
  [.open, .insert oneMark, .call 0 .reserve, .call 0 (.createDir true), .call 0 (.column 0 0),
    .call 0 (.column 0 0), .call 0 (.column 0 3), .crash, .open] ++ wholeInsert oneMark 1

/-- A new table in `DATA_DIR`. -/
def Table.dataDir : Table := .fresh ⟨["data", "tinyolap_smoke"], .empty, ∅⟩

/-- The part of the second call holds its batch. -/
theorem isolated_of_run_crash : ∃ s,
    Table.dataDir.run Lz4.literals markSchema crashThenInsert = some s ∧
      WrittenPart Lz4.literals markSchema oneMark.toRecordBatch
        (s.disk.part markSchema (partName 0)) := by
  obtain ⟨s, ran, calls⟩ : ∃ s,
      Table.dataDir.run Lz4.literals markSchema crashThenInsert = some s ∧
      s.calls = [⟨oneMark, some 0, false, .lost⟩, ⟨oneMark, some 0, true, .syncDir⟩] :=
    ⟨_, rfl, rfl⟩
  have small : s.IdsBelow := by
    intro call member id named
    have zero : call.partId = some 0 := by
      rw [calls, List.mem_cons, List.mem_singleton] at member
      rcases member with rfl | rfl <;> rfl
    cases zero.symm.trans named
    decide
  obtain ⟨-, -, parts, -⟩ := isolated_of_run (by decide) (by decide) ran small
  obtain ⟨_, holds⟩ := parts ⟨oneMark, some 0, true, .syncDir⟩ (by simp [calls]) 0 rfl rfl
  exact ⟨s, ran, holds⟩

/-- A table whose only column is kept in the table directory. -/
def outsideSchema : TableSchema := ⟨"t", [⟨"../m", .bool⟩]⟩

/-- A batch of one row for it. -/
def outsideMark (b : Bool) : InsertBatch where
  fields := [⟨"../m", .data .bool⟩]
  columns := [⟨.data .bool, [b]⟩]
  numRows := 1
  typed := rfl
  lengths := by
    intro a member
    cases List.mem_singleton.mp member
    rfl
  offsets := by
    intro a member
    cases List.mem_singleton.mp member
    exact Nat.two_pow_pos 31

/-- The second of two inserts writes over what the first has written. -/
theorem part_overwritten : ∃ s s',
    Table.dataDir.run Lz4.literals outsideSchema (.open :: wholeInsert (outsideMark true) 0) =
      some s ∧
    s.run Lz4.literals outsideSchema (wholeInsert (outsideMark false) 1) = some s' ∧
    s'.IdsBelow ∧ partName 0 ∈ s.disk.listed ∧
    s'.disk.part outsideSchema (partName 0) ≠ s.disk.part outsideSchema (partName 0) := by
  obtain ⟨s, s', ran, ran', calls, present, differ⟩ : ∃ s s',
      Table.dataDir.run Lz4.literals outsideSchema (.open :: wholeInsert (outsideMark true) 0) =
        some s ∧
      s.run Lz4.literals outsideSchema (wholeInsert (outsideMark false) 1) = some s' ∧
      s'.calls.map Call.partId = [some 0, some 1] ∧ partName 0 ∈ s.disk.listed ∧
      s'.disk.part outsideSchema (partName 0) (.bin "../m") ≠
        s.disk.part outsideSchema (partName 0) (.bin "../m") :=
    ⟨_, _, rfl, rfl, rfl, by decide, by decide⟩
  refine ⟨s, s', ran, ran', fun call member id named => ?_, present,
    fun same => differ (congrFun same _)⟩
  have inside : some id ∈ s'.calls.map Call.partId := named ▸ List.mem_map_of_mem member
  rw [calls] at inside
  simp only [List.mem_cons, Option.some.injEq, List.not_mem_nil, or_false] at inside
  omega

end TinyOlap.Storage
