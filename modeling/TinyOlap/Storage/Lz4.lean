import TinyOlap.Library.LittleEndian

/-!
# Block compression

Blocks are compressed by a library. What the storage relies on is stated here:
decompression undoes compression as long as the length of the input fits in the
32 bits that are prepended, and compression expands its input by at most a tenth and
24 bytes.

`Lz4.literals` shows that the two can be had. It writes every input as one run of
literals, which is what compression does with inputs too short for a match.
-/

set_option autoImplicit false

namespace TinyOlap.Storage

open Library

structure Lz4 where
  compressPrependSize : Bytes → Bytes
  /-- The bytes, or the text of the error. -/
  decompressSizePrepended : Bytes → Except String Bytes
  decompress_compress : ∀ b : Bytes, b.length < 2 ^ 32 →
    decompressSizePrepended (compressPrependSize b) = .ok b
  compress_length : ∀ b : Bytes, (compressPrependSize b).length ≤ 24 + b.length * 110 / 100

namespace Lz4

/-! ## Literals only -/

/-- The token and the length bytes of a last sequence of `n` literals. -/
def literalHeader (n : Nat) : Bytes :=
  if n < 15 then [UInt8.ofNat (16 * n)]
  else 0xF0 :: (List.replicate ((n - 15) / 255) 255 ++ [UInt8.ofNat ((n - 15) % 255)])

/-- Skip the length bytes of a token: all that are `255`, and one more. -/
def skipLength : Bytes → Bytes
  | [] => []
  | b :: rest => if b = 255 then skipLength rest else rest

/-- The literals behind the token. -/
def readLiterals : Bytes → Except String Bytes
  | [] => .error "expected another byte"
  | token :: rest => .ok (if token = 0xF0 then skipLength rest else rest)

theorem skipLength_replicate (k : Nat) (rest : Bytes) :
    skipLength (List.replicate k 255 ++ rest) = skipLength rest := by
  induction k with
  | zero => rfl
  | succ k ih => rw [List.replicate_succ, List.cons_append, skipLength, if_pos rfl, ih]

theorem readLiterals_header (b : Bytes) :
    readLiterals (literalHeader b.length ++ b) = .ok b := by
  unfold literalHeader
  split
  · rename_i short
    have token : UInt8.ofNat (16 * b.length) ≠ 0xF0 := by
      intro same
      have := congrArg UInt8.toNat same
      simp only [UInt8.toNat_ofNat'] at this
      change _ = 240 at this
      omega
    rw [List.singleton_append, readLiterals, if_neg token]
  · have last : UInt8.ofNat ((b.length - 15) % 255) ≠ 255 := by
      intro same
      have := congrArg UInt8.toNat same
      simp only [UInt8.toNat_ofNat'] at this
      change _ = 255 at this
      omega
    rw [List.cons_append, readLiterals, if_pos rfl, List.append_assoc, skipLength_replicate,
      List.singleton_append, skipLength, if_neg last]

/-- Compression that finds no match. -/
def literals : Lz4 where
  compressPrependSize b := leBytes 4 b.length ++ literalHeader b.length ++ b
  decompressSizePrepended b :=
    if b.length < 4 then .error "expected another byte" else readLiterals (b.drop 4)
  decompress_compress b _ := by
    have long : ¬ (leBytes 4 b.length ++ literalHeader b.length ++ b).length < 4 := by simp
    rw [if_neg long, List.append_assoc, List.drop_left' (leBytes_length _ _),
      readLiterals_header]
  compress_length b := by
    have header : (literalHeader b.length).length ≤ 2 + b.length / 255 := by
      unfold literalHeader
      split
      · rw [List.length_singleton]
        omega
      · simp only [List.length_cons, List.length_append, List.length_replicate, List.length_nil]
        omega
    simp only [List.length_append, leBytes_length]
    omega

end Lz4

end TinyOlap.Storage
