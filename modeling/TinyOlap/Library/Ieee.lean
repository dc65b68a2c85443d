import TinyOlap.Library.LittleEndian

/-!
# IEEE 754 bit patterns

A floating-point number is its bit pattern: a sign bit, `e` exponent bits and `f`
fraction bits. Read as a number, the bits below the sign are the magnitude, and
magnitudes are ordered as the absolute values they stand for; the magnitudes above
that of infinity are the NaNs.

Two orders live on the patterns. The usual comparisons (`ieeeLt`, `ieeeLe`, `ieeeEq`)
are false as soon as a NaN takes part and do not tell the zeros apart; the total
order (`totalKey`) ranks every pattern. Arithmetic computes the exact rational result
and rounds it once, to nearest with ties to even (`ofRatio`).
-/

set_option autoImplicit false

namespace TinyOlap.Library

/-- A bit pattern with `e` exponent bits and `f` fraction bits. -/
@[ext] structure Ieee (e f : Nat) where
  bits : Nat
  bound : bits < 2 ^ (e + f + 1)
deriving DecidableEq, Repr

namespace Ieee

variable {e f : Nat}

/-! ## Fields -/

/-- The bits below the sign. -/
def magnitude (x : Ieee e f) : Nat := x.bits % 2 ^ (e + f)

/-- The sign bit is set. -/
def negative (x : Ieee e f) : Bool := decide (2 ^ (e + f) ≤ x.bits)

/-- The magnitude of infinity: all exponent bits, no fraction bit. -/
def infinity (e f : Nat) : Nat := (2 ^ e - 1) * 2 ^ f

def isNaN (x : Ieee e f) : Bool := decide (infinity e f < x.magnitude)

def isInfinite (x : Ieee e f) : Bool := decide (x.magnitude = infinity e f)

/-- The pattern with the given sign and magnitude. -/
def make (e f : Nat) (negative : Bool) (magnitude : Nat) : Ieee e f where
  bits := (if negative then 2 ^ (e + f) else 0) + magnitude % 2 ^ (e + f)
  bound := by
    have low : magnitude % 2 ^ (e + f) < 2 ^ (e + f) := Nat.mod_lt _ (Nat.two_pow_pos _)
    rw [Nat.pow_succ]
    split <;> omega

/-! ## Orders -/

/-- The magnitude with its sign: the order of the numbers, both zeros at `0`. -/
def key (x : Ieee e f) : Int := if x.negative then -(x.magnitude : Int) else x.magnitude

/-- `x < y`. -/
def ieeeLt (x y : Ieee e f) : Bool := !x.isNaN && !y.isNaN && decide (x.key < y.key)

/-- `x <= y`. -/
def ieeeLe (x y : Ieee e f) : Bool := !x.isNaN && !y.isNaN && decide (x.key ≤ y.key)

/-- `x == y`. -/
def ieeeEq (x y : Ieee e f) : Bool := !x.isNaN && !y.isNaN && decide (x.key = y.key)

/-- The rank of a pattern in the total order: negative patterns below positive ones,
so that the zeros differ and the NaNs stand at the two ends. -/
def totalKey (x : Ieee e f) : Int :=
  if x.negative then -(x.magnitude : Int) - 1 else x.magnitude

theorem ieeeLt_iff {x y : Ieee e f} :
    x.ieeeLt y = true ↔ x.isNaN = false ∧ y.isNaN = false ∧ x.key < y.key := by
  simp [ieeeLt, and_assoc]

theorem ieeeLe_iff {x y : Ieee e f} :
    x.ieeeLe y = true ↔ x.isNaN = false ∧ y.isNaN = false ∧ x.key ≤ y.key := by
  simp [ieeeLe, and_assoc]

theorem ieeeEq_iff {x y : Ieee e f} :
    x.ieeeEq y = true ↔ x.isNaN = false ∧ y.isNaN = false ∧ x.key = y.key := by
  simp [ieeeEq, and_assoc]

/-- A pattern is its sign and its magnitude. -/
theorem ext_fields {x y : Ieee e f} (sign : x.negative = y.negative)
    (same : x.magnitude = y.magnitude) : x = y := by
  have boundX := x.bound
  have boundY := y.bound
  rw [Nat.pow_succ] at boundX boundY
  have sign : 2 ^ (e + f) ≤ x.bits ↔ 2 ^ (e + f) ≤ y.bits := decide_eq_decide.mp sign
  have highX := Nat.div_add_mod x.bits (2 ^ (e + f))
  have highY := Nat.div_add_mod y.bits (2 ^ (e + f))
  have same : x.bits % 2 ^ (e + f) = y.bits % 2 ^ (e + f) := same
  ext
  by_cases high : 2 ^ (e + f) ≤ x.bits
  · rw [Nat.mod_eq_sub_mod high, Nat.mod_eq_sub_mod (sign.mp high),
      Nat.mod_eq_of_lt (by omega), Nat.mod_eq_of_lt (by omega)] at same
    have := sign.mp high
    omega
  · rw [Nat.mod_eq_of_lt (by omega), Nat.mod_eq_of_lt (by omega)] at same
    exact same

/-- The total order tells all patterns apart. -/
theorem totalKey_injective {x y : Ieee e f} (same : x.totalKey = y.totalKey) : x = y := by
  unfold totalKey at same
  cases signX : x.negative <;> cases signY : y.negative <;> simp only [signX, signY] at same
  · exact ext_fields (signX.trans signY.symm) (by simpa using same)
  · simp only [Bool.false_eq_true, if_false, if_true] at same
    omega
  · simp only [Bool.false_eq_true, if_false, if_true] at same
    omega
  · exact ext_fields (signX.trans signY.symm) (by simpa using same)

/-- The total order refines the order of the numbers. -/
theorem totalKey_lt_of_key_lt {x y : Ieee e f} (less : x.key < y.key) :
    x.totalKey < y.totalKey := by
  unfold key at less
  unfold totalKey
  cases signX : x.negative <;> cases signY : y.negative <;>
    simp only [signX, signY, Bool.false_eq_true, if_false, if_true] at less ⊢ <;> omega

/-- Among equal numbers it only puts the negative zero below the positive one. -/
theorem totalKey_lt_of_key_eq {x y : Ieee e f} (same : x.key = y.key) :
    x.totalKey < y.totalKey ↔
      x.magnitude = 0 ∧ y.magnitude = 0 ∧ x.negative = true ∧ y.negative = false := by
  unfold key at same
  unfold totalKey
  cases signX : x.negative <;> cases signY : y.negative <;>
    simp only [signX, signY, Bool.false_eq_true, Bool.true_eq_false, if_false, if_true, and_true,
      and_false, iff_false] at same ⊢ <;>
    omega

/-- The NaNs stand at the two ends, on the side of their sign. -/
theorem totalKey_lt_iff_of_isNaN {x y : Ieee e f} (nan : x.isNaN = true)
    (number : y.isNaN = false) :
    (x.totalKey < y.totalKey ↔ x.negative = true) ∧
      (y.totalKey < x.totalKey ↔ x.negative = false) := by
  have above : infinity e f < x.magnitude := of_decide_eq_true nan
  have below : ¬ infinity e f < y.magnitude := of_decide_eq_false number
  unfold totalKey
  cases x.negative <;> cases y.negative <;>
    simp only [Bool.false_eq_true, if_false, if_true, iff_false, iff_true, reduceCtorEq] <;> omega

/-! ## Values -/

/-- The exponent bias. -/
def bias (e : Nat) : Int := 2 ^ (e - 1) - 1

/-- The exponent of the least significant fraction bit of the subnormal numbers. -/
def leastExponent (e f : Nat) : Int := 1 - bias e - f

/-- The absolute value of a finite number, as a numerator over a power of two. -/
def absRatio (x : Ieee e f) : Nat × Nat :=
  let exponent := x.magnitude / 2 ^ f
  let fraction := x.magnitude % 2 ^ f
  let significand := if exponent = 0 then fraction else 2 ^ f + fraction
  let scale := leastExponent e f + ((max exponent 1 : Nat) : Int) - 1
  if 0 ≤ scale then (significand * 2 ^ scale.toNat, 1) else (significand, 2 ^ (-scale).toNat)

/-- The greatest `k` with `2 ^ k ≤ num / den`. -/
def floorLog (num den : Nat) : Int :=
  let guess := (Nat.log2 num : Int) - Nat.log2 den
  let reached :=
    if 0 ≤ guess then den * 2 ^ guess.toNat ≤ num else den ≤ num * 2 ^ (-guess).toNat
  if reached then guess else guess - 1

/-- `num / den` rounded to an integer, ties to even. -/
def roundHalfEven (num den : Nat) : Nat :=
  let quotient := num / den
  let rest := num % den
  if den < 2 * rest ∨ (2 * rest = den ∧ quotient % 2 = 1) then quotient + 1 else quotient

/-- The number nearest to `± num / den`, ties to even; infinity beyond the range. -/
def ofRatio (e f : Nat) (negative : Bool) (num den : Nat) : Ieee e f :=
  if num = 0 then make e f negative 0
  else
    let least := leastExponent e f
    let unit := max (floorLog num den - f) least
    let significand :=
      if 0 ≤ unit then roundHalfEven num (den * 2 ^ unit.toNat)
      else roundHalfEven (num * 2 ^ (-unit).toNat) den
    -- a significand with its hidden bit carries into the exponent field
    make e f negative (min (significand + (unit - least).toNat * 2 ^ f) (infinity e f))

/-- The number nearest to an integer. -/
def ofInt (e f : Nat) (n : Int) : Ieee e f := ofRatio e f (decide (n < 0)) n.natAbs 1

/-- Set the topmost fraction bit of a NaN. -/
def quiet (x : Ieee e f) : Ieee e f := make e f x.negative (x.magnitude ||| 2 ^ (f - 1))

/-- Convert to another format: exact where the value fits, rounded elsewhere. -/
def convert (e' f' : Nat) (x : Ieee e f) : Ieee e' f' :=
  if x.isNaN then
    let fraction := (x.magnitude % 2 ^ f) * 2 ^ f' / 2 ^ f
    quiet (make e' f' x.negative (infinity e' f' + fraction))
  else if x.isInfinite then make e' f' x.negative (infinity e' f')
  else ofRatio e' f' x.negative x.absRatio.1 x.absRatio.2

/-- The sum of two numbers. -/
def add (x y : Ieee e f) : Ieee e f :=
  if x.isNaN then x.quiet
  else if y.isNaN then y.quiet
  else if x.isInfinite then
    if y.isInfinite && x.negative != y.negative then make e f true (infinity e f + 2 ^ (f - 1))
    else x
  else if y.isInfinite then y
  else
    let left : Int := (x.absRatio.1 * y.absRatio.2 : Nat)
    let right : Int := (y.absRatio.1 * x.absRatio.2 : Nat)
    let sum := (if x.negative then -left else left) + if y.negative then -right else right
    let sign := if sum = 0 then x.negative && y.negative else decide (sum < 0)
    ofRatio e f sign sum.natAbs (x.absRatio.2 * y.absRatio.2)

/-- The quotient of two numbers. -/
def div (x y : Ieee e f) : Ieee e f :=
  let sign := x.negative != y.negative
  if x.isNaN then x.quiet
  else if y.isNaN then y.quiet
  else if x.isInfinite then
    if y.isInfinite then make e f true (infinity e f + 2 ^ (f - 1))
    else make e f sign (infinity e f)
  else if y.isInfinite then make e f sign 0
  else if y.absRatio.1 = 0 then
    if x.absRatio.1 = 0 then make e f true (infinity e f + 2 ^ (f - 1))
    else make e f sign (infinity e f)
  else ofRatio e f sign (x.absRatio.1 * y.absRatio.2) (x.absRatio.2 * y.absRatio.1)

/-! ## Bytes -/

/-- The little-endian bytes of a pattern, in `width` bytes. -/
def toLeBytes (width : Nat) (x : Ieee e f) : Bytes := leBytes width x.bits

/-- The pattern with the given little-endian bytes. -/
def ofLeBytes (e f : Nat) (bytes : Bytes) : Ieee e f where
  bits := leNat bytes % 2 ^ (e + f + 1)
  bound := Nat.mod_lt _ (Nat.two_pow_pos _)

/-- **A pattern survives being written and read back, NaNs and zeros included.** -/
theorem ofLeBytes_toLeBytes {width : Nat} (size : 8 * width = e + f + 1) (x : Ieee e f) :
    ofLeBytes e f (toLeBytes width x) = x := by
  have fits : x.bits < 256 ^ width := by
    have same : (256 : Nat) ^ width = 2 ^ (e + f + 1) := by rw [← size, Nat.pow_mul]
    rw [same]
    exact x.bound
  ext
  show leNat (leBytes width x.bits) % 2 ^ (e + f + 1) = x.bits
  rw [leNat_leBytes_of_lt fits, Nat.mod_eq_of_lt x.bound]

/-! ## Known patterns -/

-- `1.0`, `-0.1`, the least subnormal single and the largest finite single as doubles,
-- `0.1 + 0.2`, and `1.0 / 3.0`
example : (ofInt 11 52 1).bits = 0x3FF0000000000000 := by decide +kernel
example : (ofRatio 11 52 true 1 10).bits = 0xBFB999999999999A := by decide +kernel
example : (convert 11 52 (make 8 23 false 1)).bits = 0x36A0000000000000 := by decide +kernel
example : (convert 11 52 (make 8 23 false 0x7F7FFFFF)).bits = 0x47EFFFFFE0000000 := by
  decide +kernel
example : (add (ofRatio 11 52 false 1 10) (ofRatio 11 52 false 2 10)).bits =
    0x3FD3333333333334 := by decide +kernel
example : (div (ofInt 11 52 1) (ofInt 11 52 3)).bits = 0x3FD5555555555555 := by decide +kernel

end Ieee

end TinyOlap.Library
