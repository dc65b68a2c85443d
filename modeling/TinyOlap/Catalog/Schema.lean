import TinyOlap.Library.Ieee
import TinyOlap.Library.MachineInt
import TinyOlap.Library.Path

/-!
# Column types and table schemas

A column has one of twelve types. All but strings have a fixed width on disk; among
these the eight integer types differ only in signedness and width, so they are one
family. Every type has its native values: integers carry the proof that they are in
range, floats are bit patterns, strings are UTF-8 strings.
-/

set_option autoImplicit false

namespace TinyOlap.Catalog

open Library

/-- The integer types. -/
inductive IntType where
  | i8 | i16 | i32 | i64 | u8 | u16 | u32 | u64
deriving DecidableEq, Repr

namespace IntType

def signed : IntType → Bool
  | i8 | i16 | i32 | i64 => true
  | u8 | u16 | u32 | u64 => false

/-- The size of a value in bytes. -/
def bytes : IntType → Nat
  | i8 | u8 => 1
  | i16 | u16 => 2
  | i32 | u32 => 4
  | i64 | u64 => 8

/-- The index of the most significant bit. -/
def top (t : IntType) : Nat := 8 * t.bytes - 1

/-- The integers of the type. -/
abbrev Native (t : IntType) : Type := MachineInt t.signed t.top

theorem bits (t : IntType) : 8 * t.bytes = t.top + 1 := by cases t <;> rfl

theorem top_le (t : IntType) : t.top ≤ 63 := by cases t <;> decide

end IntType

abbrev I64 : Type := MachineInt true 63
abbrev U64 : Type := MachineInt false 63
abbrev U32 : Type := MachineInt false 31
abbrev F32 : Type := Ieee 8 23
abbrev F64 : Type := Ieee 11 52

/-- The types whose values all have the same size on disk. -/
inductive FixedType where
  | int (t : IntType)
  | f32
  | f64
  | bool
deriving DecidableEq, Repr

/-- The values of a fixed-width type. -/
@[reducible] def FixedType.Native : FixedType → Type
  | int t => t.Native
  | f32 => F32
  | f64 => F64
  | bool => Bool

/-- The types of columns. -/
inductive DataType where
  | fixed (t : FixedType)
  | str
deriving DecidableEq, Repr

namespace DataType

@[match_pattern] abbrev int (t : IntType) : DataType := fixed (.int t)
@[match_pattern] abbrev f32 : DataType := fixed .f32
@[match_pattern] abbrev f64 : DataType := fixed .f64
@[match_pattern] abbrev bool : DataType := fixed .bool

/-- The values of a type. -/
@[reducible] def Native : DataType → Type
  | fixed t => t.Native
  | str => String

instance : (t : DataType) → DecidableEq t.Native
  | int t => inferInstanceAs (DecidableEq t.Native)
  | f32 => inferInstanceAs (DecidableEq F32)
  | f64 => inferInstanceAs (DecidableEq F64)
  | bool => inferInstanceAs (DecidableEq Bool)
  | str => inferInstanceAs (DecidableEq String)

/-- The tag a type has on disk. -/
def typeTag : DataType → UInt8
  | int .i8 => 1
  | int .i16 => 2
  | int .i32 => 3
  | int .i64 => 4
  | int .u8 => 5
  | int .u16 => 6
  | int .u32 => 7
  | int .u64 => 8
  | f32 => 9
  | f64 => 10
  | bool => 11
  | str => 12

end DataType

/-- The name of a type, as messages show it. -/
def typeText : DataType → String
  | .int .i8 => "I8"
  | .int .i16 => "I16"
  | .int .i32 => "I32"
  | .int .i64 => "I64"
  | .int .u8 => "U8"
  | .int .u16 => "U16"
  | .int .u32 => "U32"
  | .int .u64 => "U64"
  | .f32 => "F32"
  | .f64 => "F64"
  | .bool => "Bool"
  | .str => "Str"

structure ColumnSchema where
  name : String
  dataType : DataType
deriving DecidableEq, Repr

structure TableSchema where
  name : String
  columns : List ColumnSchema
deriving DecidableEq, Repr

namespace TableSchema

/-- The first column with a name: `schema.columns.iter().find(|c| c.name == name)`. -/
def find (schema : TableSchema) (name : String) : Option ColumnSchema :=
  schema.columns.find? fun c => c.name = name

/-- No two columns have the same name. -/
def Distinct (schema : TableSchema) : Prop := (schema.columns.map ColumnSchema.name).Nodup

instance (schema : TableSchema) : Decidable schema.Distinct :=
  inferInstanceAs (Decidable (List.Nodup _))

/-- No column name has a slash in it, so that every file of a part is one of its directory. -/
def PlainNames (schema : TableSchema) : Prop := ∀ c ∈ schema.columns, Library.Path.Plain c.name

instance (schema : TableSchema) : Decidable schema.PlainNames :=
  inferInstanceAs (Decidable (∀ c ∈ _, _))

theorem find_some {schema : TableSchema} {name : String} {c : ColumnSchema}
    (found : schema.find name = some c) : c ∈ schema.columns ∧ c.name = name :=
  ⟨List.mem_of_find?_eq_some found, by simpa using List.find?_some found⟩

/-- In a schema without repeated names a column is found by its name. -/
theorem find_of_mem {schema : TableSchema} (distinct : schema.Distinct) {c : ColumnSchema}
    (member : c ∈ schema.columns) : schema.find c.name = some c := by
  obtain ⟨_, columns⟩ := schema
  unfold find Distinct at *
  induction columns with
  | nil => simp at member
  | cons d columns ih =>
      rw [List.map_cons, List.nodup_cons] at distinct
      rcases List.mem_cons.mp member with rfl | later
      · simp
      · have other : d.name ≠ c.name := fun same =>
          distinct.1 (same ▸ List.mem_map_of_mem later)
        rw [List.find?_cons_of_neg (by simpa using other)]
        exact ih distinct.2 later

end TableSchema

/-! ## Directories -/

/-- A number with at least five digits. -/
def padded (n : Nat) : String :=
  let digits := toString n
  String.ofList (List.replicate (5 - digits.length) '0') ++ digits

/-- The name of the directory of a part: the last component of `part_dir`. -/
def partName (id : Nat) : String := "part_" ++ padded id

end TinyOlap.Catalog
