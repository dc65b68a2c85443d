import TinyOlap.Execution.Aggregation.AggregateResult
import TinyOlap.Execution.RowTree

/-!
# Groups of rows

The keys and the values of batches are those of their rows, where a row gives its cells names:
the key of a row are its cells in the group columns, and a group consists of the rows with its
key. What is grouped by and aggregated can be read off a row that has only these columns.
-/

set_option autoImplicit false

namespace TinyOlap.Execution

open Library Library.WorkPool Catalog Arrow Storage Physical

/-! ## The rows of a group -/

/-- The cell of a row under a name. -/
def cellIn (name : String) (row : NamedRow) : Value := (row.lookup name).getD noCell

/-- The rows with a key. -/
def rowsOfGroup (names : List String) (rows : List NamedRow) (key : GroupKey) : List NamedRow :=
  rows.filter fun row => selectCells names row = key

/-- The keys of rows, once each. Without GROUP BY there is one group in any case. -/
def keysOfRows (names : List String) (rows : List NamedRow) : List GroupKey :=
  if names = [] then [[]] else (rows.map (selectCells names)).eraseDups

theorem keysOfRows_perm {names : List String} {rows rows' : List NamedRow}
    (same : rows.Perm rows') : (keysOfRows names rows).Perm (keysOfRows names rows') := by
  rw [keysOfRows, keysOfRows]
  split
  · exact .refl _
  · refine (List.perm_ext_iff_of_nodup (nodup_eraseDups _) (nodup_eraseDups _)).mpr fun key => ?_
    rw [List.mem_eraseDups, List.mem_eraseDups]
    exact (same.map _).mem_iff

theorem selectCells_cons {name : String} {names : List String} {row : NamedRow} {v : Value}
    (found : row.lookup name = some v) :
    selectCells (name :: names) row = v :: selectCells names row :=
  List.filterMap_cons_some found

/-- Rows with the same key have the same cells in the group columns. -/
theorem lookup_eq_of_selectCells {names : List String} {row row' : NamedRow}
    (present : HasNames names row) (present' : HasNames names row')
    (same : selectCells names row = selectCells names row') :
    ∀ name ∈ names, row.lookup name = row'.lookup name := by
  induction names with
  | nil => exact nofun
  | cons name names ih =>
      obtain ⟨v, found⟩ := Option.isSome_iff_exists.mp (present name List.mem_cons_self)
      obtain ⟨v', found'⟩ := Option.isSome_iff_exists.mp (present' name List.mem_cons_self)
      rw [selectCells_cons found, selectCells_cons found', List.cons.injEq] at same
      have rest := ih (fun other member => present other (List.mem_cons_of_mem _ member))
        (fun other member => present' other (List.mem_cons_of_mem _ member)) same.2
      exact List.forall_mem_cons.mpr ⟨by rw [found, found', same.1], rest⟩

/-- The cells of a key are those of all rows of its group. -/
theorem forall₂_key {names : List String} {rows : List NamedRow} {key : GroupKey}
    (present : ∀ row ∈ rows, HasNames names row) (member : key ∈ keysOfRows names rows) :
    List.Forall₂ (fun name v => ∀ row ∈ rowsOfGroup names rows key, row.lookup name = some v)
      names key := by
  rw [keysOfRows] at member
  split at member
  · rename_i none
    cases List.mem_singleton.mp member
    exact none ▸ .nil
  · obtain ⟨row, inside, rfl⟩ := List.mem_map.mp (List.mem_eraseDups.mp member)
    refine forall₂_filterMap fun name here => ?_
    obtain ⟨v, found⟩ := Option.isSome_iff_exists.mp (present row inside name here)
    refine ⟨v, found, fun row' grouped => ?_⟩
    obtain ⟨inside', same⟩ := List.mem_filter.mp grouped
    rw [lookup_eq_of_selectCells (present row' inside') (present row inside)
      (of_decide_eq_true same) name here, found]

/-! ## Batches -/

variable {groupByFields fields : List Field} {batches : List RecordBatch}

theorem keysOf_eq_map {batch : RecordBatch}
    (grouped : ∀ f ∈ groupByFields, Accumulator.FieldOf fields f.name f.dataType)
    (has : batch.fields = fields) :
    keysOf groupByFields batch =
      batch.namedRows.map (selectCells (groupByFields.map Field.name)) := by
  have present : ∀ name ∈ groupByFields.map Field.name, name ∈ batch.names := by
    intro name member
    obtain ⟨f, inside, rfl⟩ := List.mem_map.mp member
    obtain ⟨g, found, _⟩ := grouped f inside
    have named : g.name = f.name := by simpa using List.find?_some found
    exact List.mem_map.mpr ⟨g, has ▸ List.mem_of_find?_eq_some found, named⟩
  obtain ⟨projected, _, _, columns, numRows, rows⟩ := projectBatch_eq present
  rw [← rows, RecordBatch.rows, numRows, columns, List.filterMap_map]
  rfl

theorem cellsOf_eq_map (batch : RecordBatch) (name : String) :
    cellsOf batch name = batch.namedRows.map (cellIn name) := by
  have looked : batch.namedRows.map (cellIn name) =
      (batch.namedRows.map fun row => row.lookup name).map fun v => v.getD noCell := by
    rw [List.map_map]
    rfl
  rcases batch.columnByName_cases name with ⟨none, column⟩ | ⟨f, a, found, column, _⟩
  · have absent : ∀ row ∈ batch.namedRows, row.lookup name = .none := by
      intro row member
      obtain ⟨cells, _, rfl⟩ := List.mem_map.mp member
      rw [List.lookup_eq_none_iff]
      intro entry inside
      obtain ⟨f, here, same⟩ := List.mem_map.mp (List.of_mem_zip inside).1
      have other : f.name ≠ name := by simpa using List.find?_eq_none.mp none f here
      rw [bne_iff_ne, ← same]
      exact other.symm
    rw [cellsOf, column, eq_comm, List.eq_replicate_iff]
    refine ⟨by simp, fun v member => ?_⟩
    obtain ⟨row, inside, rfl⟩ := List.mem_map.mp member
    rw [cellIn, absent row inside]
    rfl
  · obtain ⟨idx, position, here⟩ := RecordBatch.findIdx?_of_find? found
    obtain ⟨a', there, _⟩ := RecordBatch.getElem?_columns here
    have same := RecordBatch.columnByName_eq position there
    rw [column] at same
    cases same
    rw [cellsOf, column, looked, RecordBatch.namedRows_lookup position there, List.map_map]
    exact (List.map_id _).symm

namespace Aggregate

/-- **The values of a group** are those of the rows with its key. -/
theorem groupValues_eq (a : Aggregate)
    (grouped : ∀ f ∈ groupByFields, Accumulator.FieldOf fields f.name f.dataType)
    (has : ∀ b ∈ batches, b.fields = fields) (key : GroupKey) :
    groupValues groupByFields batches key a =
      (rowsOfGroup (groupByFields.map Field.name) (batches.flatMap RecordBatch.namedRows) key).map
        (cellIn a.columnName) := by
  have keyed : batches.flatMap (keyedRows groupByFields a) =
      (batches.flatMap RecordBatch.namedRows).map fun row =>
        (selectCells (groupByFields.map Field.name) row, cellIn a.columnName row) := by
    rw [List.map_flatMap]
    refine List.flatMap_congr fun batch member => ?_
    rw [keyedRows, keysOf_eq_map grouped (has batch member), cellsOf_eq_map, List.zip_map']
  rw [groupValues, keyed, entriesOf_map_pair, rowsOfGroup]

end Aggregate

namespace AggregateExec

theorem distinctKeys_eq
    (grouped : ∀ f ∈ groupByFields, Accumulator.FieldOf fields f.name f.dataType)
    (has : ∀ b ∈ batches, b.fields = fields) :
    distinctKeys groupByFields batches =
      ((batches.flatMap RecordBatch.namedRows).map
        (selectCells (groupByFields.map Field.name))).eraseDups := by
  rw [distinctKeys, List.map_flatMap]
  exact congrArg List.eraseDups
    (List.flatMap_congr fun batch member => keysOf_eq_map grouped (has batch member))

theorem resultKeys_eq
    (grouped : ∀ f ∈ groupByFields, Accumulator.FieldOf fields f.name f.dataType)
    (has : ∀ b ∈ batches, b.fields = fields) :
    resultKeys groupByFields batches =
      keysOfRows (groupByFields.map Field.name) (batches.flatMap RecordBatch.namedRows) := by
  rw [resultKeys, keysOfRows, distinctKeys_eq grouped has]
  simp only [List.map_eq_nil_iff]

end AggregateExec

/-! ## Rows with fewer columns -/

section Restricted

variable {columns names : List String} {rows : List NamedRow}

theorem map_selectCells_restrictRow (present : ∀ row ∈ rows, HasNames columns row)
    (inside : names ⊆ columns) :
    (rows.map (restrictRow columns)).map (selectCells names) = rows.map (selectCells names) := by
  rw [List.map_map]
  exact List.map_congr_left fun row member => selectCells_restrictRow (present row member) inside

theorem keysOfRows_restrictRow (present : ∀ row ∈ rows, HasNames columns row)
    (inside : names ⊆ columns) :
    keysOfRows names (rows.map (restrictRow columns)) = keysOfRows names rows := by
  rw [keysOfRows, keysOfRows, map_selectCells_restrictRow present inside]

theorem rowsOfGroup_restrictRow (present : ∀ row ∈ rows, HasNames columns row)
    (inside : names ⊆ columns) (key : GroupKey) :
    rowsOfGroup names (rows.map (restrictRow columns)) key =
      (rowsOfGroup names rows key).map (restrictRow columns) := by
  rw [rowsOfGroup, rowsOfGroup, List.filter_map]
  congr 1
  refine List.filter_congr fun row member => ?_
  rw [Function.comp_apply, selectCells_restrictRow (present row member) inside]

theorem cellIn_restrictRow {row : NamedRow} (present : HasNames columns row) {name : String}
    (member : name ∈ columns) : cellIn name (restrictRow columns row) = cellIn name row := by
  rw [cellIn, restrictRow_lookup present member, cellIn]

end Restricted

end TinyOlap.Execution
