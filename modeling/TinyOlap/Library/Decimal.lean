import Mathlib.Data.Nat.Log
import TinyOlap.Library.Ieee
import TinyOlap.Library.MachineInt

/-!
# Numbers in decimal

How the text of a number is read: an integer is a sign, where its type has one, and
digits, and must be in range; a floating-point number may have a fraction and an exponent,
or be one of the words for infinity and not-a-number, and is rounded once.
-/

set_option autoImplicit false

namespace TinyOlap.Library.Decimal

/-- The number that digits stand for. -/
def ofDigits (digits : List Char) : Nat :=
  digits.foldl (fun n c => 10 * n + (c.toNat - '0'.toNat)) 0

/-- A sign, if there is one, and the rest. The flag is set for a minus. -/
def takeSign : List Char → Bool × List Char
  | '-' :: rest => (true, rest)
  | '+' :: rest => (false, rest)
  | text => (false, text)

/-- Digits, at least one and nothing else. -/
def digitsOnly (text : List Char) : Bool := !text.isEmpty && text.all Char.isDigit

/-- Read an integer of a machine type. An unsigned type has no minus. -/
def parseInt (signed : Bool) (top : Nat) (text : String) : Option (MachineInt signed top) :=
  let (negative, digits) := takeSign text.toList
  if digitsOnly digits ∧ (signed ∨ negative = false) then
    let n : Int := ofDigits digits
    MachineInt.ofInt? signed top (if negative then -n else n)
  else none

/-- The integer that a text stands for, of any size: digits behind an optional sign. -/
def integer (text : String) : Option Int :=
  let (negative, digits) := takeSign text.toList
  if digitsOnly digits then some (if negative then -(ofDigits digits : Int) else ofDigits digits)
  else none

/-- A signed type reads exactly the integers in its range. -/
theorem parseInt_signed {top : Nat} {text : String} {v : MachineInt true top} :
    parseInt true top text = some v ↔ integer text = some v.val := by
  simp only [parseInt, integer, true_or, and_true]
  split
  · rw [MachineInt.ofInt?_eq_some, Option.some.injEq, eq_comm]
  · simp

/-- What a type does not read stands for no integer, or for one out of range. -/
theorem parseInt_signed_eq_none {top : Nat} {text : String} :
    parseInt true top text = none ↔
      ∀ n, integer text = some n → ¬ (minVal true top ≤ n ∧ n ≤ maxVal true top) := by
  rw [Option.eq_none_iff_forall_ne_some]
  constructor
  · intro unread n stands range
    exact unread ⟨n, range.1, range.2⟩ (parseInt_signed.mpr stands)
  · intro out v read
    exact out v.val (parseInt_signed.mp read) ⟨v.lower, v.upper⟩

/-! ## Written integers -/

theorem ofDigits_toDigits (n : Nat) : ofDigits (Nat.toDigits 10 n) = n :=
  Nat.ofDigitChars_ten_toDigits

/-- Zeros in front make no difference. -/
theorem ofDigits_zeros (count : Nat) (digits : List Char) :
    ofDigits (List.replicate count '0' ++ digits) = ofDigits digits := by
  change Nat.ofDigitChars 10 _ 0 = Nat.ofDigitChars 10 _ 0
  rw [Nat.ofDigitChars_append, Nat.ofDigitChars_replicate_zero, Nat.mul_zero]

theorem digitsOnly_eq_true {text : List Char} :
    digitsOnly text = true ↔ text ≠ [] ∧ ∀ c ∈ text, c.isDigit = true := by
  simp [digitsOnly]

theorem digitsOnly_toDigits (n : Nat) : digitsOnly (Nat.toDigits 10 n) = true :=
  digitsOnly_eq_true.mpr ⟨Nat.toDigits_ne_nil, fun _ member =>
    Nat.isDigit_of_mem_toDigits (by decide) (by decide) member⟩

/-- Digits have no sign in front. -/
theorem takeSign_of_digitsOnly {text : List Char} (digits : digitsOnly text = true) :
    takeSign text = (false, text) := by
  obtain ⟨nonempty, all⟩ := digitsOnly_eq_true.mp digits
  cases text with
  | nil => exact (nonempty rfl).elim
  | cons c rest =>
      have first := all c List.mem_cons_self
      unfold takeSign
      split
      · rename_i same
        cases same
        cases first
      · rename_i same
        cases same
        cases first
      · rfl

/-- Digits are read as the number they stand for, if the type has it. -/
theorem parseInt_of_digitsOnly (signed : Bool) (top : Nat) {text : String}
    (digits : digitsOnly text.toList = true) :
    parseInt signed top text = MachineInt.ofInt? signed top (ofDigits text.toList) := by
  simp [parseInt, takeSign_of_digitsOnly digits, digits]

/-- A text with a character that is neither a digit nor a sign is not read. -/
theorem parseInt_eq_none (signed : Bool) (top : Nat) {text : String} {c : Char}
    (member : c ∈ text.toList) (noDigit : c.isDigit = false) (noMinus : c ≠ '-')
    (noPlus : c ≠ '+') : parseInt signed top text = none := by
  have inside : c ∈ (takeSign text.toList).2 := by
    unfold takeSign
    split
    · rename_i rest same
      exact (List.mem_cons.mp (same ▸ member)).resolve_left noMinus
    · rename_i rest same
      exact (List.mem_cons.mp (same ▸ member)).resolve_left noPlus
    · exact member
  have unread : digitsOnly (takeSign text.toList).2 ≠ true := fun only =>
    absurd ((digitsOnly_eq_true.mp only).2 c inside) (by simp [noDigit])
  simp [parseInt, unread]

/-- **A written number is read again**, if the type has it. -/
theorem parseInt_toString (signed : Bool) (top n : Nat) :
    parseInt signed top (toString n) = MachineInt.ofInt? signed top n := by
  have digits : (toString n).toList = Nat.toDigits 10 n := Nat.toList_repr
  rw [parseInt_of_digitsOnly signed top (by rw [digits]; exact digitsOnly_toDigits n), digits,
    ofDigits_toDigits]

theorem integer_toString (n : Nat) : integer (toString n) = some (n : Int) := by
  simp [integer, takeSign_of_digitsOnly (digitsOnly_toDigits n), digitsOnly_toDigits,
    ofDigits_toDigits]

/-- Why a text is not an integer of a machine type. -/
def intError (text : String) : String :=
  let (negative, digits) := takeSign text.toList
  if text.isEmpty then "cannot parse integer from empty string"
  else if digitsOnly digits = false then "invalid digit found in string"
  else if negative then "number too small to fit in target type"
  else "number too large to fit in target type"

/-- The exponent at the end of a number, if there is one. -/
def parseExponent : List Char → Option Int
  | [] => some 0
  | c :: rest =>
      let (negative, digits) := takeSign rest
      if (c = 'e' ∨ c = 'E') ∧ digitsOnly digits then
        some (if negative then -(ofDigits digits : Int) else ofDigits digits)
      else none

/-- Read a floating-point number. -/
def parseFloat (e f : Nat) (text : String) : Option (Ieee e f) :=
  let (negative, body) := takeSign text.toList
  let word := String.ofList (body.map Char.toLower)
  if word = "inf" ∨ word = "infinity" then some (Ieee.make e f negative (Ieee.infinity e f))
  else if word = "nan" then some (Ieee.make e f negative (Ieee.infinity e f + 2 ^ (f - 1)))
  else
    let whole := body.takeWhile Char.isDigit
    let rest := body.dropWhile Char.isDigit
    let (fraction, rest) :=
      match rest with
      | '.' :: rest => (rest.takeWhile Char.isDigit, rest.dropWhile Char.isDigit)
      | rest => ([], rest)
    if whole.isEmpty ∧ fraction.isEmpty then none
    else
      (parseExponent rest).map fun exponent =>
        let scale : Int := exponent - fraction.length
        let significand := ofDigits (whole ++ fraction)
        if 0 ≤ scale then Ieee.ofRatio e f negative (significand * 10 ^ scale.toNat) 1
        else Ieee.ofRatio e f negative significand (10 ^ (-scale).toNat)

/-- Why a text is not a floating-point number. -/
def floatError (text : String) : String :=
  if text.isEmpty then "cannot parse float from empty string" else "invalid float literal"

/-! ## Writing -/

/-- Digits with the point moved to the left by so many places, or filled up with zeros. -/
def placePoint (digits : List Char) (places : Int) : List Char :=
  if places ≤ 0 then digits ++ List.replicate (-places).toNat '0'
  else
    let padded := List.replicate (places.toNat + 1 - digits.length) '0' ++ digits
    let whole := padded.take (padded.length - places.toNat)
    let fraction := (padded.drop (padded.length - places.toNat)).reverse.dropWhile (· = '0')
    if fraction.isEmpty then whole else whole ++ '.' :: fraction.reverse

/-- The shortest digits that are read as the number again, without an exponent. -/
def display {e f : Nat} (x : Ieee e f) : String :=
  let sign := if x.negative then "-" else ""
  if x.isNaN then "NaN"
  else if x.isInfinite then sign ++ "inf"
  else
    let (num, den) := x.absRatio
    if num = 0 then sign ++ "0"
    else
      let log : Int :=
        if den ≤ num then Nat.log 10 (num / den) else -(Nat.clog 10 ((den + num - 1) / num) : Int)
      let rounded := fun (precision : Nat) =>
        let places : Int := precision - log
        let digits :=
          if 0 ≤ places then Ieee.roundHalfEven (num * 10 ^ places.toNat) den
          else Ieee.roundHalfEven num (den * 10 ^ (-places).toNat)
        placePoint (Nat.toDigits 10 digits) places
      let shortest := (List.range 18).find? fun precision =>
        parseFloat e f (sign ++ String.ofList (rounded precision)) = some x
      sign ++ String.ofList (rounded (shortest.getD 17))

-- `-128` fits a byte and `128` does not; `2.5e-1` is a quarter
example : (parseInt true 7 "-128").map MachineInt.val = some (-128) := by decide
example : parseInt true 7 "128" = none := by decide
example : (parseFloat 11 52 "2.5e-1").map Ieee.bits = some 0x3FD0000000000000 := by decide +kernel

end TinyOlap.Library.Decimal
