import TinyOlap.Catalog.Schema
import TinyOlap.Encoding.Codec

/-!
# Serialization of fixed-width values

A fixed-width value becomes bytes, little-endian, and back. The width is one of the
strides the codecs know. The laws are part of the class: they hold of the eleven
types that have an instance, and the class has no other instances.
-/

set_option autoImplicit false

namespace TinyOlap.Encoding

open Library Catalog

/-- Serialization contract for fixed-width column types. -/
class Primitive (T : Type) where
  /-- Byte width of this type on disk. -/
  width : Nat
  /-- This value's little-endian bytes. -/
  encodeLe : T → Bytes
  /-- Reconstruct a value from its `width` bytes. -/
  decodeLe : Bytes → T
  /-- The comparison `<` of the type. -/
  lt : T → T → Bool
  width_supported : Supported width
  encodeLe_length : ∀ v, (encodeLe v).length = width
  decodeLe_encodeLe : ∀ v, decodeLe (encodeLe v) = v

namespace Primitive

theorem width_pos (T : Type) [Primitive T] : 0 < width T := (width_supported (T := T)).pos

theorem width_le (T : Type) [Primitive T] : width T ≤ 8 := (width_supported (T := T)).le

end Primitive

instance (t : IntType) : Primitive t.Native where
  width := t.bytes
  encodeLe := MachineInt.toLeBytes t.bytes
  decodeLe := MachineInt.ofLeBytes t.signed t.top
  lt := fun a b => decide (a.val < b.val)
  width_supported := by cases t <;> decide
  encodeLe_length := fun _ => leBytes_length _ _
  decodeLe_encodeLe := MachineInt.ofLeBytes_toLeBytes t.bits

instance : Primitive F32 where
  width := 4
  encodeLe := Ieee.toLeBytes 4
  decodeLe := Ieee.ofLeBytes 8 23
  lt := Ieee.ieeeLt
  width_supported := by decide
  encodeLe_length := fun _ => leBytes_length _ _
  decodeLe_encodeLe := Ieee.ofLeBytes_toLeBytes rfl

instance : Primitive F64 where
  width := 8
  encodeLe := Ieee.toLeBytes 8
  decodeLe := Ieee.ofLeBytes 11 52
  lt := Ieee.ieeeLt
  width_supported := by decide
  encodeLe_length := fun _ => leBytes_length _ _
  decodeLe_encodeLe := Ieee.ofLeBytes_toLeBytes rfl

-- stored as a single byte; any byte but `0` reads as `true`
instance : Primitive Bool where
  width := 1
  encodeLe := fun b => [if b then 1 else 0]
  decodeLe := fun bytes => bytes.headD 0 != 0
  lt := fun a b => !a && b
  width_supported := by decide
  encodeLe_length := fun _ => rfl
  decodeLe_encodeLe := by decide

instance : (t : FixedType) → Primitive t.Native
  | .int t => inferInstanceAs (Primitive t.Native)
  | .f32 => inferInstanceAs (Primitive F32)
  | .f64 => inferInstanceAs (Primitive F64)
  | .bool => inferInstanceAs (Primitive Bool)

end TinyOlap.Encoding
