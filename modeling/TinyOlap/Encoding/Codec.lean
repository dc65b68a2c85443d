import TinyOlap.Library.LittleEndian
import TinyOlap.Library.Outcome

/-!
# Codecs for fixed-width data

A codec transforms the serialized values of a block, of which it knows only the
width of one value, its stride. `Plain` copies, `Delta` replaces every value but the
first by its difference to the one before, modulo the width, and `RLE` stores a
16-bit count and a value for each run.

Every codec appends to its output, and decoding what was encoded appends the bytes
that were given (`Codec.encode_decode`), whatever the values are.
-/

set_option autoImplicit false

namespace TinyOlap.Encoding

open Library

inductive EncodingError where
  | truncated
  | badHeader
  | unsupportedStride (stride : Nat)
  | invalidUtf8
  | corrupt
deriving DecidableEq, Repr

/-- The strides with an integer type of that width. -/
def Supported (stride : Nat) : Prop := stride = 1 ∨ stride = 2 ∨ stride = 4 ∨ stride = 8

instance (stride : Nat) : Decidable (Supported stride) :=
  inferInstanceAs (Decidable (_ ∨ _))

theorem Supported.pos {stride : Nat} (supported : Supported stride) : 0 < stride := by
  rcases supported with h | h | h | h <;> omega

theorem Supported.le {stride : Nat} (supported : Supported stride) : stride ≤ 8 := by
  rcases supported with h | h | h | h <;> omega

/-! ## Plain -/

namespace Plain

def encode (src : Bytes) (_stride : Nat) (out : Bytes) : Outcome EncodingError Bytes :=
  .ok (out ++ src)

def decode (src : Bytes) (stride : Nat) (out : Bytes) : Outcome EncodingError Bytes :=
  if stride = 0 then .err (.unsupportedStride stride)
  else if src.length % stride ≠ 0 then .err .truncated
  else .ok (out ++ src)

theorem decode_whole {src : Bytes} {stride : Nat} (pos : 0 < stride) (whole : stride ∣ src.length)
    (out : Bytes) : decode src stride out = .ok (out ++ src) := by
  rw [decode, if_neg pos.ne', if_neg (by simpa using Nat.mod_eq_zero_of_dvd whole)]

end Plain

/-! ## Delta -/

namespace Delta

/-- Subtraction in `w` bytes. -/
def wrappingSub (w a b : Nat) : Nat := (a + 256 ^ w - b) % 256 ^ w

/-- Addition in `w` bytes. -/
def wrappingAdd (w a b : Nat) : Nat := (a + b) % 256 ^ w

def encodeLoop (w : Nat) : List Bytes → Nat → Bytes → Bytes
  | [], _, out => out
  | chunk :: rest, prev, out =>
      let curr := leNat chunk
      encodeLoop w rest curr (out ++ leBytes w (wrappingSub w curr prev))

/-- The four strides run the same loop at their own width. -/
def encode (src : Bytes) (stride : Nat) (out : Bytes) : Outcome EncodingError Bytes :=
  if src = [] then .ok out
  else if Supported stride then
    -- the slice of the first value
    if src.length < stride then .panic
    else
      let first := src.take stride
      .ok (encodeLoop stride (chunksExact stride (src.drop stride)) (leNat first) (out ++ first))
  else .ok (out ++ src)

def decodeLoop (w : Nat) : List Bytes → Nat → Bytes → Bytes
  | [], _, out => out
  | chunk :: rest, prev, out =>
      let curr := wrappingAdd w prev (leNat chunk)
      decodeLoop w rest curr (out ++ leBytes w curr)

def decode (src : Bytes) (stride : Nat) (out : Bytes) : Outcome EncodingError Bytes :=
  if src = [] then .ok out
  else if stride = 0 then .panic
  else if src.length % stride ≠ 0 then .err .truncated
  else if Supported stride then
    let first := src.take stride
    .ok (decodeLoop stride (chunksExact stride (src.drop stride)) (leNat first) (out ++ first))
  else .err (.unsupportedStride stride)

/-- Adding the difference back gives the value. -/
theorem wrappingAdd_wrappingSub {w a b : Nat} (fitsA : a < 256 ^ w) (fitsB : b < 256 ^ w) :
    wrappingAdd w b (wrappingSub w a b) = a := by
  unfold wrappingAdd wrappingSub
  rw [Nat.add_mod_mod, show b + (a + 256 ^ w - b) = a + 256 ^ w by omega, Nat.add_mod_right,
    Nat.mod_eq_of_lt fitsA]

theorem wrappingSub_lt (w a b : Nat) : wrappingSub w a b < 256 ^ w :=
  Nat.mod_lt _ (Nat.pow_pos (by decide))

/-- The loop appends one difference for each value; adding them up from the value
before gives the values back. -/
theorem encodeLoop_decodeLoop {w : Nat} (pieces : List Bytes)
    (widths : ∀ p ∈ pieces, p.length = w) {prev : Nat} (fits : prev < 256 ^ w) :
    ∃ deltas : List Bytes, (∀ d ∈ deltas, d.length = w) ∧ deltas.length = pieces.length ∧
      (∀ out, encodeLoop w pieces prev out = out ++ deltas.flatten) ∧
      ∀ out, decodeLoop w deltas prev out = out ++ pieces.flatten := by
  induction pieces generalizing prev with
  | nil => exact ⟨[], by simp, rfl, by simp [encodeLoop], by simp [decodeLoop]⟩
  | cons p pieces ih =>
      have width : p.length = w := widths p (by simp)
      have fitsHere : leNat p < 256 ^ w := width ▸ leNat_lt p
      obtain ⟨deltas, deltaWidths, count, encoded, decoded⟩ :=
        ih (fun q member => widths q (by simp [member])) fitsHere
      refine ⟨leBytes w (wrappingSub w (leNat p) prev) :: deltas, ?_, by simp [count], ?_, ?_⟩
      · intro d member
        rcases List.mem_cons.mp member with rfl | later
        · exact leBytes_length _ _
        · exact deltaWidths d later
      · intro out
        rw [encodeLoop, encoded, List.flatten_cons, List.append_assoc]
      · intro out
        have value : wrappingAdd w prev (leNat (leBytes w (wrappingSub w (leNat p) prev))) =
            leNat p := by
          rw [leNat_leBytes_of_lt (wrappingSub_lt _ _ _), wrappingAdd_wrappingSub fitsHere fits]
        have bytes : leBytes w (leNat p) = p := by rw [← width, leBytes_leNat]
        simp only [decodeLoop]
        rw [value, decoded, bytes, List.flatten_cons, List.append_assoc]

theorem encode_decode {src : Bytes} {stride : Nat} (supported : Supported stride)
    (whole : stride ∣ src.length) :
    ∃ encoded, encoded.length = src.length ∧
      (∀ out, encode src stride out = .ok (out ++ encoded)) ∧
      ∀ out, decode encoded stride out = .ok (out ++ src) := by
  obtain ⟨pieces, widths, rfl⟩ := exists_pieces whole
  cases pieces with
  | nil => exact ⟨[], rfl, by simp [encode], by simp [decode]⟩
  | cons first pieces =>
      have pos : 0 < stride := supported.pos
      have width : first.length = stride := widths first (by simp)
      have restWidths : ∀ p ∈ pieces, p.length = stride := fun p member =>
        widths p (by simp [member])
      have fits : leNat first < 256 ^ stride := width ▸ leNat_lt first
      obtain ⟨deltas, deltaWidths, count, encoded, decoded⟩ :=
        encodeLoop_decodeLoop pieces restWidths fits
      have lengthPieces : pieces.flatten.length = stride * pieces.length := by
        simpa using length_flatMap_of_width (f := id) restWidths
      have lengthDeltas : deltas.flatten.length = stride * deltas.length := by
        simpa using length_flatMap_of_width (f := id) deltaWidths
      have nonempty : ∀ rest : Bytes, first ++ rest ≠ [] := by
        intro rest empty
        have := congrArg List.length empty
        simp only [List.length_append, List.length_nil] at this
        omega
      refine ⟨first ++ deltas.flatten, ?_, ?_, ?_⟩
      · rw [List.flatten_cons, List.length_append, List.length_append, lengthPieces, lengthDeltas,
          count]
      · intro out
        have long : ¬ (first ++ pieces.flatten).length < stride := by
          rw [List.length_append]; omega
        rw [List.flatten_cons, encode, if_neg (nonempty _), if_pos supported, if_neg long]
        simp only [← width, List.take_left, List.drop_left]
        rw [width, chunksExact_flatten pos restWidths, encoded, List.append_assoc]
      · intro out
        have divides : ¬ (first ++ deltas.flatten).length % stride ≠ 0 := by
          rw [List.length_append, lengthDeltas, width, Nat.add_mul_mod_self_left, Nat.mod_self]
          simp
        rw [decode, if_neg (nonempty _), if_neg pos.ne', if_neg divides, if_pos supported]
        simp only [← width, List.take_left, List.drop_left]
        rw [width, chunksExact_flatten pos deltaWidths, decoded, List.flatten_cons,
          List.append_assoc]

end Delta

/-! ## Run lengths -/

namespace Rle

/-- The greatest count of one pair. -/
def maxCount : Nat := 65535

def encodeLoop : List Bytes → Bytes → Nat → Bytes → Bytes
  -- the loop never emits its last pair
  | [], prev, count, out => out ++ leBytes 2 count ++ prev
  | chunk :: rest, prev, count, out =>
      if chunk = prev ∧ count < maxCount then encodeLoop rest prev (count + 1) out
      else encodeLoop rest chunk 1 (out ++ leBytes 2 count ++ prev)

def encode (src : Bytes) (stride : Nat) (out : Bytes) : Outcome EncodingError Bytes :=
  if src = [] then .ok out
  else if src.length < stride ∨ stride = 0 then .panic
  else
    .ok (encodeLoop (chunksExact stride (src.drop stride)) (src.take stride) 1 out)

def decode (src : Bytes) (stride : Nat) (out : Bytes) : Outcome EncodingError Bytes :=
  if src = [] then .ok out
  else if src.length < 2 + stride then .err .truncated
  else
    let count := leNat (src.take 2)
    let value := (src.drop 2).take stride
    decode (src.drop (2 + stride)) stride (out ++ (List.replicate count value).flatten)
termination_by src.length
decreasing_by
  rw [List.length_drop]
  omega

/-- One pair is decoded to its value, repeated. -/
theorem decode_pair {stride count : Nat} {value : Bytes} (width : value.length = stride)
    (fits : count ≤ maxCount) (rest out : Bytes) :
    decode (leBytes 2 count ++ value ++ rest) stride out =
      decode rest stride (out ++ (List.replicate count value).flatten) := by
  have length : (leBytes 2 count ++ value ++ rest).length = 2 + stride + rest.length := by
    simp [width, Nat.add_assoc]
  have nonempty : leBytes 2 count ++ value ++ rest ≠ [] := by
    intro empty
    rw [empty, List.length_nil] at length
    omega
  have head : (leBytes 2 count ++ value ++ rest).take 2 = leBytes 2 count := by
    rw [List.append_assoc]
    exact List.take_left' (leBytes_length _ _)
  have body : ((leBytes 2 count ++ value ++ rest).drop 2).take stride = value := by
    rw [List.append_assoc, List.drop_left' (leBytes_length _ _), List.take_left' width]
  have tail : (leBytes 2 count ++ value ++ rest).drop (2 + stride) = rest :=
    List.drop_left' (by simp [width])
  rw [decode, if_neg nonempty, if_neg (by omega), head, body, tail,
    leNat_leBytes_of_lt (by unfold maxCount at fits; omega)]

/-- The loop appends pairs that decode to the pending run and the values behind it. -/
theorem encodeLoop_decode {stride : Nat} (pieces : List Bytes)
    (widths : ∀ p ∈ pieces, p.length = stride) {prev : Bytes} (width : prev.length = stride)
    {count : Nat} (fits : count ≤ maxCount) :
    ∃ encoded : Bytes, encoded.length ≤ (2 + stride) * (pieces.length + 1) ∧
      (∀ out, encodeLoop pieces prev count out = out ++ encoded) ∧
      ∀ out, decode encoded stride out =
        .ok (out ++ (List.replicate count prev).flatten ++ pieces.flatten) := by
  induction pieces generalizing prev count with
  | nil =>
      refine ⟨leBytes 2 count ++ prev, by simp [width], by simp [encodeLoop], fun out => ?_⟩
      have single := decode_pair width fits [] out
      rw [List.append_nil] at single
      rw [single, decode, if_pos rfl, List.flatten_nil, List.append_nil]
  | cons p pieces ih =>
      have restWidths : ∀ q ∈ pieces, q.length = stride := fun q member =>
        widths q (by simp [member])
      by_cases run : p = prev ∧ count < maxCount
      · have room : count + 1 ≤ maxCount := run.2
        obtain ⟨encoded, size, encode, decoded⟩ := ih restWidths width room
        refine ⟨encoded, ?_, ?_, ?_⟩
        · exact size.trans (Nat.mul_le_mul_left _ (by simp))
        · intro out
          rw [encodeLoop, if_pos run, encode]
        · intro out
          rw [decoded, List.replicate_succ', List.flatten_append, List.flatten_cons, run.1]
          simp
      · have single : 1 ≤ maxCount := by decide
        obtain ⟨encoded, size, encode, decoded⟩ := ih restWidths (widths p (by simp)) single
        refine ⟨leBytes 2 count ++ prev ++ encoded, ?_, ?_, ?_⟩
        · have pair : (leBytes 2 count ++ prev).length = 2 + stride := by simp [width]
          rw [List.length_append, pair, List.length_cons, Nat.mul_succ]
          omega
        · intro out
          rw [encodeLoop, if_neg run, encode]
          simp
        · intro out
          rw [decode_pair width fits, decoded]
          simp

theorem encode_decode {src : Bytes} {stride : Nat} (pos : 0 < stride)
    (whole : stride ∣ src.length) :
    ∃ encoded, encoded.length ≤ 3 * src.length ∧
      (∀ out, encode src stride out = .ok (out ++ encoded)) ∧
      ∀ out, decode encoded stride out = .ok (out ++ src) := by
  obtain ⟨pieces, widths, rfl⟩ := exists_pieces whole
  cases pieces with
  | nil => exact ⟨[], by simp, by simp [encode], fun out => by rw [decode]; simp⟩
  | cons first pieces =>
      have width : first.length = stride := widths first (by simp)
      have restWidths : ∀ p ∈ pieces, p.length = stride := fun p member =>
        widths p (by simp [member])
      have single : 1 ≤ maxCount := by decide
      obtain ⟨encoded, size, encoding, decoded⟩ := encodeLoop_decode pieces restWidths width single
      have length : (first ++ pieces.flatten).length = stride * (pieces.length + 1) := by
        have rest : pieces.flatten.length = stride * pieces.length := by
          simpa using length_flatMap_of_width (f := id) restWidths
        rw [List.length_append, rest, width, Nat.mul_succ, Nat.add_comm]
      refine ⟨encoded, ?_, ?_, ?_⟩
      · rw [List.flatten_cons, length, ← Nat.mul_assoc]
        exact size.trans (Nat.mul_le_mul_right _ (by omega))
      · intro out
        have nonempty : first ++ pieces.flatten ≠ [] := by
          intro empty
          rw [empty, List.length_nil, Nat.mul_succ] at length
          omega
        have long : ¬ ((first ++ pieces.flatten).length < stride ∨ stride = 0) := by
          rw [List.length_append]; omega
        rw [List.flatten_cons, encode, if_neg nonempty, if_neg long, ← encoding]
        rw [← width, List.take_left, List.drop_left, width, chunksExact_flatten pos restWidths]
      · intro out
        rw [decoded]
        simp

end Rle

/-! ## The codec of a block -/

inductive Codec where
  | plain
  | delta
  | rle
deriving DecidableEq, Repr

namespace Codec

def encode (codec : Codec) (src : Bytes) (stride : Nat) (out : Bytes) :
    Outcome EncodingError Bytes :=
  match codec with
  | plain => Plain.encode src stride out
  | delta => Delta.encode src stride out
  | rle => Rle.encode src stride out

def decode (codec : Codec) (src : Bytes) (stride : Nat) (out : Bytes) :
    Outcome EncodingError Bytes :=
  match codec with
  | plain => Plain.decode src stride out
  | delta => Delta.decode src stride out
  | rle => Rle.decode src stride out

def tag : Codec → UInt8
  | plain => 0
  | delta => 1
  | rle => 2

def fromTag (tag : UInt8) : Outcome EncodingError Codec :=
  if tag = 0 then .ok plain
  else if tag = 1 then .ok delta
  else if tag = 2 then .ok rle
  else .err .badHeader

theorem fromTag_tag (codec : Codec) : fromTag codec.tag = .ok codec := by cases codec <;> rfl

/-- **Decoding what a codec encoded appends the bytes it was given.** -/
theorem encode_decode (codec : Codec) {src : Bytes} {stride : Nat} (supported : Supported stride)
    (whole : stride ∣ src.length) :
    ∃ encoded, encoded.length ≤ 3 * src.length ∧
      (∀ out, codec.encode src stride out = .ok (out ++ encoded)) ∧
      ∀ out, codec.decode encoded stride out = .ok (out ++ src) := by
  cases codec with
  | plain =>
      exact ⟨src, by omega, fun _ => rfl, Plain.decode_whole supported.pos whole⟩
  | delta =>
      obtain ⟨encoded, size, encoding, decoding⟩ := Delta.encode_decode supported whole
      exact ⟨encoded, by omega, encoding, decoding⟩
  | rle => exact Rle.encode_decode supported.pos whole

end Codec

end TinyOlap.Encoding
