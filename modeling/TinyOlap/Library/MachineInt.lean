import Mathlib.Algebra.Order.Ring.Int
import Mathlib.Data.Int.ModEq
import Mathlib.Tactic.Ring
import TinyOlap.Library.LittleEndian

/-!
# Machine integers

A machine integer is an integer together with the proof that it lies in the range
of its type. The type is given by its signedness and by the index `top` of its most
significant bit, so a type has `top + 1` bits and no type is empty.

`wrap` reduces any integer into the range modulo `2 ^ (top + 1)`: it fixes the values
of the type (`wrap_val`), it only sees the residue (`wrap_eq_wrap_iff`), and so it
may be taken once at the end of a sum (`wrap_add_wrap`). Written little-endian and
read back, a value is unchanged (`ofLeBytes_toLeBytes`).
-/

set_option autoImplicit false

namespace TinyOlap.Library

/-- The number of values of a type whose top bit has index `top`. -/
def modulus (top : Nat) : Int := 2 ^ (top + 1)

/-- The least value of a type. -/
def minVal (signed : Bool) (top : Nat) : Int := if signed then -(2 ^ top) else 0

/-- The greatest value of a type. -/
def maxVal (signed : Bool) (top : Nat) : Int := if signed then 2 ^ top - 1 else 2 ^ (top + 1) - 1

/-- An integer in the range of its type. -/
@[ext] structure MachineInt (signed : Bool) (top : Nat) where
  val : Int
  lower : minVal signed top ≤ val
  upper : val ≤ maxVal signed top
deriving DecidableEq, Repr

namespace MachineInt

variable {signed : Bool} {top : Nat}

theorem modulus_pos (top : Nat) : 0 < modulus top := Int.pow_pos (by decide)

theorem maxVal_eq (signed : Bool) (top : Nat) :
    maxVal signed top = minVal signed top + modulus top - 1 := by
  cases signed <;> simp only [maxVal, minVal, modulus, if_true, if_false, Bool.false_eq_true] <;>
    ring

/-- The value of the type that is congruent to `n`. -/
def wrap (signed : Bool) (top : Nat) (n : Int) : MachineInt signed top where
  val := (n - minVal signed top) % modulus top + minVal signed top
  lower := by
    have := Int.emod_nonneg (n - minVal signed top) (modulus_pos top).ne'
    omega
  upper := by
    have := Int.emod_lt_of_pos (n - minVal signed top) (modulus_pos top)
    rw [maxVal_eq]
    omega

/-- The value itself, when it is in range. -/
def ofInt? (signed : Bool) (top : Nat) (n : Int) : Option (MachineInt signed top) :=
  if range : minVal signed top ≤ n ∧ n ≤ maxVal signed top then some ⟨n, range.1, range.2⟩
  else none

theorem ofInt?_eq_some {n : Int} {v : MachineInt signed top} :
    ofInt? signed top n = some v ↔ v.val = n := by
  constructor
  · intro h
    by_cases range : minVal signed top ≤ n ∧ n ≤ maxVal signed top
    · simp only [ofInt?, range, and_self, dite_true, Option.some.injEq] at h
      rw [← h]
    · simp [ofInt?, range] at h
  · rintro rfl
    simp [ofInt?, v.lower, v.upper]

/-! ## Wrapping -/

theorem wrap_val_emod (n : Int) : (wrap signed top n).val % modulus top = n % modulus top := by
  rw [wrap, Int.emod_add_emod, Int.sub_add_cancel]

theorem wrap_val_of_range {n : Int} (lower : minVal signed top ≤ n)
    (upper : n ≤ maxVal signed top) : (wrap signed top n).val = n := by
  rw [maxVal_eq] at upper
  show (n - minVal signed top) % modulus top + minVal signed top = n
  rw [Int.emod_eq_of_lt (by omega) (by omega), Int.sub_add_cancel]

@[simp] theorem wrap_val (v : MachineInt signed top) : wrap signed top v.val = v :=
  MachineInt.ext (wrap_val_of_range v.lower v.upper)

/-- Wrapping sees an integer only up to multiples of the modulus. -/
theorem wrap_eq_wrap_iff {m n : Int} :
    wrap signed top m = wrap signed top n ↔ m % modulus top = n % modulus top := by
  constructor
  · intro h
    rw [← @wrap_val_emod signed top m, h, wrap_val_emod]
  · intro h
    apply MachineInt.ext
    have shifted : (m - minVal signed top) % modulus top =
        (n - minVal signed top) % modulus top := by
      rw [Int.sub_emod, h, ← Int.sub_emod]
    simp only [wrap, shifted]

@[simp] theorem wrap_emod (n : Int) : wrap signed top (n % modulus top) = wrap signed top n :=
  wrap_eq_wrap_iff.mpr (Int.emod_emod_of_dvd n (dvd_refl _))

/-- Wrapping an addend early does not change the wrapped sum. -/
theorem wrap_add_wrap (m n : Int) :
    wrap signed top ((wrap signed top m).val + n) = wrap signed top (m + n) := by
  rw [wrap_eq_wrap_iff, Int.add_emod, wrap_val_emod, ← Int.add_emod]

theorem wrap_wrap_add (m n : Int) :
    wrap signed top (m + (wrap signed top n).val) = wrap signed top (m + n) := by
  rw [Int.add_comm, wrap_add_wrap, Int.add_comm]

/-! ## Bytes -/

/-- The two's complement representation of a value. -/
def toNat (v : MachineInt signed top) : Nat := (v.val % modulus top).toNat

theorem toNat_lt (v : MachineInt signed top) : v.toNat < 2 ^ (top + 1) := by
  have upper := Int.emod_lt_of_pos v.val (modulus_pos top)
  have lower := Int.emod_nonneg v.val (modulus_pos top).ne'
  have same : ((2 ^ (top + 1) : Nat) : Int) = modulus top := by rw [modulus]; push_cast; rfl
  rw [toNat]
  omega

@[simp] theorem wrap_toNat (v : MachineInt signed top) : wrap signed top v.toNat = v := by
  rw [toNat, Int.toNat_of_nonneg (Int.emod_nonneg _ (modulus_pos top).ne'), wrap_emod, wrap_val]

/-- The little-endian bytes of a value, in `width` bytes. -/
def toLeBytes (width : Nat) (v : MachineInt signed top) : Bytes := leBytes width v.toNat

/-- The value with the given little-endian bytes. -/
def ofLeBytes (signed : Bool) (top : Nat) (bytes : Bytes) : MachineInt signed top :=
  wrap signed top (leNat bytes)

/-- **A value survives being written and read back.** -/
theorem ofLeBytes_toLeBytes {width : Nat} (bits : 8 * width = top + 1)
    (v : MachineInt signed top) : ofLeBytes signed top (toLeBytes width v) = v := by
  have fits : v.toNat < 256 ^ width := by
    have same : (256 : Nat) ^ width = 2 ^ (top + 1) := by
      rw [← bits, Nat.pow_mul]
    rw [same]
    exact v.toNat_lt
  rw [ofLeBytes, toLeBytes, leNat_leBytes_of_lt fits, wrap_toNat]

end MachineInt

end TinyOlap.Library
