import Mathlib.Data.List.Forall2
import TinyOlap.Catalog.Schema
import TinyOlap.Library.Outcome

/-!
# Record batches

A record batch is a list of typed arrays of equal length under a schema. Besides the
column types there is one more array type, the pair of a sum and a count, in which
partial averages travel.

Operators work on columns, but what they mean is said in rows: a row of a batch is
the list of its cells in column order (`RecordBatch.rows`), and a named row pairs the
cells with the names of their columns (`RecordBatch.namedRows`). The lemmas below say
what selecting, cutting and filtering columns does to the rows.
-/

set_option autoImplicit false

namespace TinyOlap.Arrow

open Library Catalog

/-! ## Arrays -/

/-- The types of arrays. -/
inductive ArrowType where
  | data (t : DataType)
  /-- `Struct { sum: Float64, count: UInt64 }`. -/
  | sumCount
deriving DecidableEq, Repr

@[reducible] def ArrowType.Native : ArrowType → Type
  | data t => t.Native
  | sumCount => F64 × U64

instance : (t : ArrowType) → DecidableEq t.Native
  | .data t => inferInstanceAs (DecidableEq t.Native)
  | .sumCount => inferInstanceAs (DecidableEq (F64 × U64))

/-- `DataType::to_arrow`. -/
abbrev toArrow (t : DataType) : ArrowType := .data t

/-- A cell: a value together with its type. -/
structure Value where
  type : ArrowType
  val : type.Native

instance : DecidableEq Value
  | ⟨t, v⟩, ⟨t', v'⟩ =>
      if same : t = t' then
        decidable_of_iff (same ▸ v = v') (by subst same; simp)
      else isFalse fun equal => same (congrArg Value.type equal)

/-- An array. -/
structure ArrayRef where
  type : ArrowType
  values : List type.Native

namespace ArrayRef

def length (a : ArrayRef) : Nat := a.values.length

/-- The values as cells. -/
def cells (a : ArrayRef) : List Value := a.values.map (Value.mk a.type)

@[simp] theorem cells_length (a : ArrayRef) : a.cells.length = a.length := by
  simp [cells, length]

theorem ext_cells {a b : ArrayRef} (types : a.type = b.type) (cells : a.cells = b.cells) :
    a = b := by
  obtain ⟨t, values⟩ := a
  obtain ⟨t', values'⟩ := b
  obtain rfl : t = t' := types
  have injective : Function.Injective (Value.mk t) := fun v w same => by cases same; rfl
  exact congrArg (ArrayRef.mk t) (List.map_injective_iff.mpr injective cells)

/-- `downcast_ref`: the values, if the array is of the type. -/
def downcast (t : ArrowType) (a : ArrayRef) : Option (List t.Native) :=
  if same : a.type = t then some (same ▸ a.values) else none

theorem downcast_eq_some {t : ArrowType} {a : ArrayRef} {values : List t.Native} :
    a.downcast t = some values ↔ a = ⟨t, values⟩ := by
  obtain ⟨t', values'⟩ := a
  by_cases same : t' = t
  · subst same
    simp [downcast]
  · simp [downcast, same]

@[simp] theorem downcast_mk (t : ArrowType) (values : List t.Native) :
    (ArrayRef.mk t values).downcast t = some values :=
  downcast_eq_some.mpr rfl

end ArrayRef

/-- How many bytes the strings of a string array have together. -/
def ArrayRef.textBytes (a : ArrayRef) : Nat :=
  match a.downcast (.data .str) with
  | some strings => (strings.map String.utf8ByteSize).sum
  | none => 0

/-- The entries at the true positions of a mask, as far as the mask reaches. -/
def keep {α : Type} : List Bool → List α → List α
  | b :: mask, v :: values => if b then v :: keep mask values else keep mask values
  | _, _ => []

namespace ArrayRef

/-- The entries from an offset on, at most so many. -/
def slice (offset length : Nat) (a : ArrayRef) : ArrayRef :=
  ⟨a.type, (a.values.drop offset).take length⟩

def filter (mask : List Bool) (a : ArrayRef) : ArrayRef := ⟨a.type, keep mask a.values⟩

end ArrayRef

/-! ## Batches -/

structure Field where
  name : String
  dataType : ArrowType
deriving DecidableEq

/-- The field of a column. -/
def Field.ofColumn (c : ColumnSchema) : Field := ⟨c.name, toArrow c.dataType⟩

inductive ArrowError where
  /-- `Unable to get field named ...` -/
  | unknownField (name : String)
  /-- The schema and the columns differ in number, or there is no column. -/
  | columnCount
  | columnType
  | columnLength
  /-- The filter mask is longer than the batch. -/
  | filterLength
  /-- A kernel got operands it does not compare. -/
  | invalidComparison
  /-- Masks of different lengths are combined. -/
  | maskLength
  /-- A row converter got columns of other types. -/
  | rowConverter
deriving DecidableEq

/-- What an error says. -/
def ArrowError.text : ArrowError → String
  | unknownField name => "Schema error: Unable to get field named \"" ++ name ++ "\""
  | columnCount =>
      "Invalid argument error: must either specify a row count or at least one column"
  | columnType => "Invalid argument error: column types must match schema types"
  | columnLength =>
      "Invalid argument error: all columns in a record batch must have the same length"
  | filterLength =>
      "Invalid argument error: Filter predicate of greater length than target array"
  | invalidComparison => "Invalid argument error: Invalid comparison operation"
  | maskLength =>
      "Compute error: Cannot perform bitwise operation on arrays of different length"
  | rowConverter => "Invalid argument error: RowConverter column schema mismatch"

@[ext] structure RecordBatch where
  fields : List Field
  columns : List ArrayRef
  numRows : Nat
  typed : columns.map ArrayRef.type = fields.map Field.dataType
  lengths : ∀ a ∈ columns, a.length = numRows

namespace RecordBatch

/-- The number of rows is given, so that a batch may have no column. -/
def tryNewWithRows (fields : List Field) (columns : List ArrayRef) (numRows : Nat) :
    Outcome ArrowError RecordBatch :=
  if columns.length ≠ fields.length then .err .columnCount
  else if typed : columns.map ArrayRef.type = fields.map Field.dataType then
    if lengths : ∀ a ∈ columns, a.length = numRows then
      .ok ⟨fields, columns, numRows, typed, lengths⟩
    else .err .columnLength
  else .err .columnType

/-- `RecordBatch::try_new`: the first column gives the number of rows. -/
def tryNew (fields : List Field) (columns : List ArrayRef) : Outcome ArrowError RecordBatch :=
  match columns with
  | [] => .err .columnCount
  | a :: _ => tryNewWithRows fields columns a.length

/-- `schema.index_of`: the position of the first column with the name. -/
def indexOf (b : RecordBatch) (name : String) : Outcome ArrowError Nat :=
  .ofOption (.unknownField name) (b.fields.findIdx? fun f => f.name = name)

/-- `column_by_name`: the first column with the name. -/
def columnByName (b : RecordBatch) (name : String) : Option ArrayRef :=
  ((b.fields.zip b.columns).find? fun entry => entry.1.name = name).map Prod.snd

/-- Select columns by position. -/
def project (b : RecordBatch) (indices : List Nat) : Outcome ArrowError RecordBatch := do
  let fields ← indices.mapM fun i => .ofOption .columnCount b.fields[i]?
  let columns ← indices.mapM fun i => .ofOption .columnCount b.columns[i]?
  tryNewWithRows fields columns b.numRows

/-- `slice`. The rows asked for are in the batch wherever it is called. -/
def slice (b : RecordBatch) (offset length : Nat) : RecordBatch where
  fields := b.fields
  columns := b.columns.map (ArrayRef.slice offset length)
  numRows := min length (b.numRows - offset)
  typed := by
    rw [List.map_map, ← b.typed]
    rfl
  lengths := by
    intro a member
    obtain ⟨c, source, rfl⟩ := List.mem_map.mp member
    rw [← b.lengths c source]
    simp [ArrayRef.slice, ArrayRef.length]

theorem keep_length {α β : Type} (mask : List Bool) {l : List α} {l' : List β}
    (same : l.length = l'.length) : (keep mask l).length = (keep mask l').length := by
  induction mask generalizing l l' with
  | nil => simp [keep]
  | cons b mask ih =>
      cases l with
      | nil => cases l' with
        | nil => rfl
        | cons w l' => simp at same
      | cons v l => cases l' with
        | nil => simp at same
        | cons w l' =>
            have rest := ih (Nat.succ.inj same)
            cases b <;> simp [keep, rest]

/-- `filter_record_batch`: keep the rows at the true positions of the mask, and drop
those beyond its end. -/
def filter (b : RecordBatch) (mask : List Bool) : Outcome ArrowError RecordBatch :=
  if b.numRows < mask.length then .err .filterLength
  else .ok
    { fields := b.fields
      columns := b.columns.map (ArrayRef.filter mask)
      numRows := (keep mask (List.range b.numRows)).length
      typed := by
        rw [List.map_map, ← b.typed]
        rfl
      lengths := by
        intro a member
        obtain ⟨c, source, rfl⟩ := List.mem_map.mp member
        exact keep_length mask ((b.lengths c source).trans (List.length_range).symm) }

/-! ## Rows -/

/-- The rows of columns of length `n`. -/
def rowsOf (n : Nat) : List ArrayRef → List (List Value)
  | [] => List.replicate n []
  | a :: columns => List.zipWith List.cons a.cells (rowsOf n columns)

/-- The rows, as lists of cells in column order. -/
def rows (b : RecordBatch) : List (List Value) := rowsOf b.numRows b.columns

/-- The names of the columns. -/
def names (b : RecordBatch) : List String := b.fields.map Field.name

/-- The rows, with the names of their columns. -/
def namedRows (b : RecordBatch) : List (List (String × Value)) := b.rows.map b.names.zip

theorem rowsOf_length {n : Nat} {columns : List ArrayRef}
    (lengths : ∀ a ∈ columns, a.length = n) : (rowsOf n columns).length = n := by
  induction columns with
  | nil => simp [rowsOf]
  | cons a columns ih =>
      rw [rowsOf, List.length_zipWith, ih fun c member => lengths c (by simp [member]),
        ArrayRef.cells_length, lengths a (by simp), Nat.min_self]

@[simp] theorem rows_length (b : RecordBatch) : b.rows.length = b.numRows := rowsOf_length b.lengths

@[simp] theorem namedRows_length (b : RecordBatch) : b.namedRows.length = b.numRows := by
  simp [namedRows]

/-- The cells of a row come from the columns, one each. -/
theorem forall₂_of_mem_rowsOf {n : Nat} {columns : List ArrayRef} {row : List Value}
    (member : row ∈ rowsOf n columns) :
    List.Forall₂ (fun a v => v ∈ a.cells) columns row := by
  induction columns generalizing row with
  | nil =>
      rw [rowsOf, List.mem_replicate] at member
      rw [member.2]
      exact .nil
  | cons a columns ih =>
      rw [rowsOf, ← List.map_uncurry_zip_eq_zipWith] at member
      obtain ⟨⟨v, rest⟩, paired, rfl⟩ := List.mem_map.mp member
      obtain ⟨here, there⟩ := List.of_mem_zip paired
      exact .cons here (ih there)

theorem columns_length (b : RecordBatch) : b.columns.length = b.fields.length := by
  simpa using congrArg List.length b.typed

/-- The column at a position has the type of the field there. -/
theorem getElem?_columns {b : RecordBatch} {idx : Nat} {f : Field}
    (field : b.fields[idx]? = some f) :
    ∃ a, b.columns[idx]? = some a ∧ a.type = f.dataType := by
  have here := congrArg (fun types => types[idx]?) b.typed
  simp only [List.getElem?_map, field, Option.map_some] at here
  exact Option.map_eq_some_iff.mp here

/-- The column at the position of the first field with a name is the column of that name. -/
theorem columnByName_eq {b : RecordBatch} {name : String} {idx : Nat} {a : ArrayRef}
    (position : b.fields.findIdx? (fun f => f.name = name) = some idx)
    (here : b.columns[idx]? = some a) : b.columnByName name = some a := by
  obtain ⟨inside, named, before⟩ := List.findIdx?_eq_some_iff_getElem.mp position
  obtain ⟨inside', rfl⟩ := List.getElem?_eq_some_iff.mp here
  have found : (b.fields.zip b.columns).find? (fun entry => entry.1.name = name) =
      some (b.fields[idx], b.columns[idx]) := by
    have both : idx < (b.fields.zip b.columns).length := by simpa using ⟨inside, inside'⟩
    refine List.find?_eq_some_iff_getElem.mpr
      ⟨by simpa using named, idx, both, List.getElem_zip, fun j less => ?_⟩
    simpa using before j less
  rw [columnByName, found]
  rfl

theorem mem_of_columnByName {b : RecordBatch} {name : String} {a : ArrayRef}
    (column : b.columnByName name = some a) :
    ∃ f, (f, a) ∈ b.fields.zip b.columns ∧ f.name = name := by
  obtain ⟨⟨f, c⟩, found, rfl⟩ := Option.map_eq_some_iff.mp column
  exact ⟨f, List.mem_of_find?_eq_some found, by simpa using List.find?_some found⟩

/-- A found entry has a position. -/
theorem findIdx?_of_find? {α : Type} {l : List α} {p : α → Bool} {a : α}
    (found : l.find? p = some a) : ∃ idx, l.findIdx? p = some idx ∧ l[idx]? = some a := by
  obtain ⟨holds, idx, inside, here, before⟩ := List.find?_eq_some_iff_getElem.mp found
  refine ⟨idx, List.findIdx?_eq_some_iff_getElem.mpr ⟨inside, here ▸ holds, fun j less => ?_⟩,
    by rw [List.getElem?_eq_getElem inside, here]⟩
  simpa using before j less

/-- A column is found by name when a field is, and has the type of the field. -/
theorem columnByName_cases (b : RecordBatch) (name : String) :
    (b.fields.find? (fun f => f.name = name) = none ∧ b.columnByName name = none) ∨
    ∃ f a, b.fields.find? (fun f => f.name = name) = some f ∧ b.columnByName name = some a ∧
      a.type = f.dataType := by
  cases found : b.fields.find? fun f => f.name = name with
  | none =>
      refine .inl ⟨rfl, Option.eq_none_iff_forall_ne_some.mpr fun a column => ?_⟩
      obtain ⟨f, member, named⟩ := mem_of_columnByName column
      have never := List.find?_eq_none.mp found f (List.of_mem_zip member).1
      exact never (by simpa using named)
  | some f =>
      obtain ⟨idx, position, field⟩ := findIdx?_of_find? found
      obtain ⟨a, column, type⟩ := getElem?_columns field
      exact .inr ⟨f, a, rfl, columnByName_eq position column, type⟩

/-- Row by row: every column gives its cell. -/
theorem rowsOf_eq_map {n : Nat} {columns : List ArrayRef} (lengths : ∀ a ∈ columns, a.length = n) :
    rowsOf n columns = (List.range n).map fun i => columns.filterMap fun a => a.cells[i]? := by
  induction columns with
  | nil => simp [rowsOf]
  | cons a columns ih =>
      rw [rowsOf, ih fun c member => lengths c (by simp [member])]
      have here : a.cells.length = n := (ArrayRef.cells_length a).trans (lengths a (by simp))
      refine List.ext_getElem (by simp [here]) fun i left right => ?_
      have inside : i < a.cells.length := by
        rw [here]
        simpa using right
      simp [List.getElem?_eq_getElem inside]

/-- The rows of columns side by side. -/
theorem rowsOf_append {n : Nat} {columns more : List ArrayRef}
    (lengths : ∀ a ∈ columns, a.length = n) (lengths' : ∀ a ∈ more, a.length = n) :
    rowsOf n (columns ++ more) = List.zipWith (· ++ ·) (rowsOf n columns) (rowsOf n more) := by
  induction columns with
  | nil =>
      refine List.ext_getElem (by simp [rowsOf, rowsOf_length lengths']) fun i left right => ?_
      simp [rowsOf]
  | cons a columns ih =>
      rw [List.cons_append, rowsOf, rowsOf, ih fun c member => lengths c (by simp [member])]
      refine List.ext_getElem (by simp [Nat.min_assoc]) fun i left right => ?_
      simp

theorem take_rowsOf_append {n : Nat} {columns more : List ArrayRef}
    (lengths : ∀ a ∈ columns, a.length = n) (lengths' : ∀ a ∈ more, a.length = n) :
    (rowsOf n (columns ++ more)).map (List.take columns.length) = rowsOf n columns := by
  rw [rowsOf_append lengths lengths']
  refine List.ext_getElem (by simp [rowsOf_length lengths, rowsOf_length lengths'])
    fun i left right => ?_
  have width := (forall₂_of_mem_rowsOf (List.getElem_mem right)).length_eq
  simp [width]

theorem rows_eq_map (b : RecordBatch) :
    b.rows = (List.range b.numRows).map fun i => b.columns.filterMap fun a => a.cells[i]? :=
  rowsOf_eq_map b.lengths

/-- A column of the rows. -/
theorem rowsOf_map_getElem? {n : Nat} {columns : List ArrayRef}
    (lengths : ∀ a ∈ columns, a.length = n) {idx : Nat} {a : ArrayRef}
    (here : columns[idx]? = some a) :
    (rowsOf n columns).map (fun row => row[idx]?) = a.cells.map some := by
  induction columns generalizing idx with
  | nil => cases here
  | cons c columns ih =>
      have later : ∀ a ∈ columns, a.length = n := fun a member => lengths a (by simp [member])
      have same : c.cells.length = (rowsOf n columns).length := by
        rw [rowsOf_length later, ArrayRef.cells_length, lengths c (by simp)]
      rw [rowsOf, List.map_zipWith, ← List.map_uncurry_zip_eq_zipWith]
      cases idx with
      | zero =>
          obtain rfl : c = a := by simpa using here
          calc (c.cells.zip (rowsOf n columns)).map (fun entry => some entry.1)
              = ((c.cells.zip (rowsOf n columns)).map Prod.fst).map some := by
                rw [List.map_map]
                rfl
            _ = c.cells.map some := by rw [List.map_fst_zip (Nat.le_of_eq same)]
      | succ idx =>
          calc (c.cells.zip (rowsOf n columns)).map (fun entry => entry.2[idx]?)
              = ((c.cells.zip (rowsOf n columns)).map Prod.snd).map fun row => row[idx]? := by
                rw [List.map_map]
                rfl
            _ = a.cells.map some := by
                rw [List.map_snd_zip (Nat.le_of_eq same.symm), ih later here]

theorem lookup_zip {names : List String} {row : List Value} (same : names.length = row.length)
    {name : String} {idx : Nat} (found : names.findIdx? (fun n => n = name) = some idx) :
    (names.zip row).lookup name = row[idx]? := by
  induction names generalizing row idx with
  | nil => cases found
  | cons n names ih =>
      cases row with
      | nil => simp at same
      | cons v row =>
          rw [List.zip_cons_cons, List.lookup_cons]
          rw [List.findIdx?_cons] at found
          by_cases here : n = name
          · simp only [here, decide_true, if_true, Option.some.injEq] at found
            subst found
            simp [here]
          · simp only [here, decide_false, Bool.false_eq_true, if_false,
              Option.map_eq_some_iff] at found
            obtain ⟨i, later, rfl⟩ := found
            rw [beq_eq_false_iff_ne.mpr (Ne.symm here), ih (Nat.succ.inj same) later]
            rfl

/-- Under names without repetition all cells are found again. -/
theorem filterMap_lookup_zip {names : List String} {row : List Value} (distinct : names.Nodup)
    (same : names.length = row.length) :
    (names.filterMap fun name => (names.zip row).lookup name) = row := by
  induction names generalizing row with
  | nil => exact (List.length_eq_zero_iff.mp same.symm).symm
  | cons n names ih =>
      cases row with
      | nil => cases same
      | cons v row =>
          rw [List.nodup_cons] at distinct
          have first : ((n :: names).zip (v :: row)).lookup n = some v := by simp
          have rest : names.filterMap (fun name => ((n :: names).zip (v :: row)).lookup name) =
              names.filterMap fun name => (names.zip row).lookup name := by
            refine List.filterMap_congr fun name member => ?_
            rw [List.zip_cons_cons, List.lookup_cons, beq_eq_false_iff_ne.mpr]
            exact fun equal => distinct.1 (equal ▸ member)
          calc (n :: names).filterMap (fun name => ((n :: names).zip (v :: row)).lookup name)
            _ = v :: names.filterMap fun name => ((n :: names).zip (v :: row)).lookup name :=
                List.filterMap_cons_some first
            _ = v :: row := by rw [rest, ih distinct.2 (Nat.succ.inj same)]

/-- The values of the rows under a name are those of the first column with the name. -/
theorem namedRows_lookup {b : RecordBatch} {name : String} {idx : Nat} {a : ArrayRef}
    (found : b.fields.findIdx? (fun f => f.name = name) = some idx)
    (here : b.columns[idx]? = some a) :
    b.namedRows.map (fun row => row.lookup name) = a.cells.map some := by
  rw [← rowsOf_map_getElem? b.lengths here, namedRows, List.map_map]
  refine List.map_congr_left fun row member => ?_
  refine lookup_zip ?_ (by rw [names, List.findIdx?_map]; exact found)
  rw [names, List.length_map, ← b.columns_length]
  exact (forall₂_of_mem_rowsOf member).length_eq

/-! ## Rows of the operations -/

theorem tryNewWithRows_eq_ok {fields : List Field} {columns : List ArrayRef} {n : Nat}
    (typed : columns.map ArrayRef.type = fields.map Field.dataType)
    (lengths : ∀ a ∈ columns, a.length = n) :
    tryNewWithRows fields columns n = .ok ⟨fields, columns, n, typed, lengths⟩ := by
  have count : columns.length = fields.length := by simpa using congrArg List.length typed
  rw [tryNewWithRows, if_neg (not_not.mpr count), dif_pos typed, dif_pos lengths]

theorem tryNew_eq_ok {fields : List Field} {columns : List ArrayRef} {n : Nat}
    (some : columns ≠ [])
    (typed : columns.map ArrayRef.type = fields.map Field.dataType)
    (lengths : ∀ a ∈ columns, a.length = n) :
    tryNew fields columns = .ok ⟨fields, columns, n, typed, lengths⟩ := by
  cases columns with
  | nil => exact (some rfl).elim
  | cons a columns =>
      rw [tryNew, lengths a (by simp)]
      exact tryNewWithRows_eq_ok typed lengths

/-- A batch has the fields and the columns it was made of, at least one. -/
theorem of_tryNew_eq_ok {fields : List Field} {columns : List ArrayRef} {b : RecordBatch}
    (made : tryNew fields columns = .ok b) :
    b.fields = fields ∧ b.columns = columns ∧ columns ≠ [] := by
  cases columns with
  | nil => cases made
  | cons a columns =>
      simp only [tryNew, tryNewWithRows] at made
      split at made
      · cases made
      · split at made
        · split at made
          · cases made
            exact ⟨rfl, rfl, by simp⟩
          · cases made
        · cases made

theorem cells_slice (offset length : Nat) (a : ArrayRef) :
    (a.slice offset length).cells = (a.cells.drop offset).take length := by
  simp [ArrayRef.cells, ArrayRef.slice, List.map_take, List.map_drop]

theorem rowsOf_slice (n offset length : Nat) (columns : List ArrayRef) :
    rowsOf (min length (n - offset)) (columns.map (ArrayRef.slice offset length)) =
      ((rowsOf n columns).drop offset).take length := by
  induction columns with
  | nil => simp [rowsOf]
  | cons a columns ih =>
      rw [List.map_cons, rowsOf, rowsOf, ih, cells_slice, List.drop_zipWith, List.take_zipWith]

/-- A slice has the rows of the slice. -/
theorem rows_slice (b : RecordBatch) (offset length : Nat) :
    (b.slice offset length).rows = (b.rows.drop offset).take length :=
  rowsOf_slice b.numRows offset length b.columns

theorem keep_map {α β : Type} (f : α → β) (mask : List Bool) (l : List α) :
    keep mask (l.map f) = (keep mask l).map f := by
  induction mask generalizing l with
  | nil => cases l <;> rfl
  | cons b mask ih =>
      cases l with
      | nil => rfl
      | cons v l => cases b <;> simp [keep, ih]

theorem keep_zipWith {α β γ : Type} (f : α → β → γ) (mask : List Bool) {l : List α} {l' : List β}
    (same : l.length = l'.length) :
    keep mask (List.zipWith f l l') = List.zipWith f (keep mask l) (keep mask l') := by
  induction mask generalizing l l' with
  | nil => cases l <;> cases l' <;> rfl
  | cons b mask ih =>
      cases l with
      | nil => cases l' <;> rfl
      | cons v l => cases l' with
        | nil => simp at same
        | cons w l' => cases b <;> simp [keep, ih (Nat.succ.inj same)]

theorem rowsOf_filter {n : Nat} (mask : List Bool) {columns : List ArrayRef}
    (lengths : ∀ a ∈ columns, a.length = n) :
    rowsOf (keep mask (List.range n)).length (columns.map (ArrayRef.filter mask)) =
      keep mask (rowsOf n columns) := by
  induction columns with
  | nil =>
      have constant : List.replicate n ([] : List Value) = (List.range n).map fun _ => [] := by
        rw [List.map_const', List.length_range]
      rw [List.map_nil, rowsOf, rowsOf, constant, keep_map, List.map_const']
  | cons a columns ih =>
      have later : ∀ c ∈ columns, c.length = n := fun c member => lengths c (by simp [member])
      have cells : (a.filter mask).cells = keep mask a.cells := (keep_map _ mask a.values).symm
      rw [List.map_cons, rowsOf, rowsOf, ih later, cells, keep_zipWith]
      rw [rowsOf_length later, ArrayRef.cells_length, lengths a (by simp)]

/-- A filtered batch has the rows at the true positions of the mask. -/
theorem filter_eq_ok {b : RecordBatch} {mask : List Bool} (short : mask.length ≤ b.numRows) :
    ∃ b', b.filter mask = .ok b' ∧ b'.fields = b.fields ∧ b'.rows = keep mask b.rows :=
  ⟨_, if_neg (Nat.not_lt.mpr short), rfl, rowsOf_filter mask b.lengths⟩

/-- A predicate on the rows, as a mask, keeps the rows that satisfy it. -/
theorem keep_map_eq_filter {α : Type} (test : α → Bool) (l : List α) :
    keep (l.map test) l = l.filter test := by
  induction l with
  | nil => rfl
  | cons v l ih =>
      rw [List.map_cons, keep, ih]
      cases holds : test v <;> simp [holds]

theorem getElem?_filterMap_of_isSome {α β : Type} {f : α → Option β} {l : List α}
    (each : ∀ a ∈ l, (f a).isSome) (idx : Nat) : (l.filterMap f)[idx]? = l[idx]?.bind f := by
  induction l generalizing idx with
  | nil => rfl
  | cons a l ih =>
      obtain ⟨b, here⟩ := Option.isSome_iff_exists.mp (each a (by simp))
      rw [List.filterMap_cons_some here]
      cases idx with
      | zero => simp [here]
      | succ idx => simpa using ih (fun c member => each c (by simp [member])) idx

/-- A projected batch has the selected cells of every row. -/
theorem project_eq_ok {b : RecordBatch} {indices : List Nat}
    (inRange : ∀ i ∈ indices, i < b.fields.length) :
    ∃ b', b.project indices = .ok b' ∧ b'.fields = indices.filterMap (b.fields[·]?) ∧
      b'.columns = indices.filterMap (b.columns[·]?) ∧ b'.numRows = b.numRows ∧
      b'.rows = b.rows.map fun row => indices.filterMap (row[·]?) := by
  have count := b.columns_length
  have typed : (indices.filterMap (b.columns[·]?)).map ArrayRef.type =
      (indices.filterMap (b.fields[·]?)).map Field.dataType := by
    rw [List.map_filterMap, List.map_filterMap]
    refine List.filterMap_congr fun i _ => ?_
    rw [← List.getElem?_map, ← List.getElem?_map, b.typed]
  have lengths : ∀ a ∈ indices.filterMap (b.columns[·]?), a.length = b.numRows := by
    intro a member
    obtain ⟨i, _, here⟩ := List.mem_filterMap.mp member
    exact b.lengths a (List.mem_of_getElem? here)
  refine ⟨⟨indices.filterMap (b.fields[·]?), indices.filterMap (b.columns[·]?), b.numRows, typed,
    lengths⟩, ?_, rfl, rfl, rfl, ?_⟩
  · rw [project, Outcome.mapM_ofOption fun i member => by simpa using inRange i member,
      Outcome.ok_bind,
      Outcome.mapM_ofOption fun i member => by simpa [count] using inRange i member,
      Outcome.ok_bind, tryNewWithRows_eq_ok typed lengths]
  · rw [rows_eq_map, rows_eq_map, List.map_map]
    refine List.map_congr_left fun i member => ?_
    have cells : ∀ a ∈ b.columns, (a.cells[i]?).isSome := by
      intro a column
      simpa [b.lengths a column] using member
    simp only [Function.comp_apply, List.filterMap_filterMap,
      getElem?_filterMap_of_isSome cells]

end RecordBatch

end TinyOlap.Arrow
