import Mathlib.Data.List.Dedup
import Mathlib.Data.List.Nodup
import TinyOlap.Encoding.StringCodec

/-!
# The formats of the codecs

Each codec has a format, and its decoder accepts just the byte strings of that format. A
plain or delta encoding is any number of whole values; a run-length encoding is a sequence
of pairs; a plain string encoding is a sequence of entries; a dictionary is a count, that
many entries, and indices below the count. No decoder panics, whatever the bytes are.

Encoding what was decoded from a format without redundancy gives the same bytes back
(`Delta.decode_encode`, `StringPlain.decode_eq_ok_iff`).
-/

set_option autoImplicit false

namespace TinyOlap.Encoding

open Library

/-! ## Whole values -/

theorem Plain.decode_ragged {src : Bytes} {stride : Nat} (pos : 0 < stride)
    (ragged : ¬ stride ∣ src.length) (out : Bytes) : decode src stride out = .err .truncated := by
  rw [decode, if_neg pos.ne', if_pos fun whole => ragged (Nat.dvd_of_mod_eq_zero whole)]

namespace Delta

theorem decode_ragged {src : Bytes} {stride : Nat} (supported : Supported stride)
    (ragged : ¬ stride ∣ src.length) (out : Bytes) : decode src stride out = .err .truncated := by
  have nonempty : src ≠ [] := by
    rintro rfl
    exact ragged (Nat.dvd_zero _)
  rw [decode, if_neg nonempty, if_neg supported.pos.ne',
    if_pos fun whole => ragged (Nat.dvd_of_mod_eq_zero whole)]

theorem wrappingAdd_lt (w a b : Nat) : wrappingAdd w a b < 256 ^ w :=
  Nat.mod_lt _ (Nat.pow_pos (by decide))

/-- Subtracting the value before gives the difference back. -/
theorem wrappingSub_wrappingAdd {w a d : Nat} (fitsA : a < 256 ^ w) (fitsD : d < 256 ^ w) :
    wrappingSub w (wrappingAdd w a d) a = d := by
  unfold wrappingSub wrappingAdd
  by_cases wraps : a + d < 256 ^ w
  · rw [Nat.mod_eq_of_lt wraps, show a + d + 256 ^ w - a = d + 256 ^ w by omega,
      Nat.add_mod_right, Nat.mod_eq_of_lt fitsD]
  · have reduced : (a + d) % 256 ^ w = a + d - 256 ^ w := by
      rw [Nat.mod_eq_sub_mod (by omega), Nat.mod_eq_of_lt (by omega)]
    rw [reduced, show a + d - 256 ^ w + 256 ^ w - a = d by omega, Nat.mod_eq_of_lt fitsD]

/-- The loop appends one value for each difference; the differences of these values are
those that were given. -/
theorem decodeLoop_encodeLoop {w : Nat} (deltas : List Bytes)
    (widths : ∀ d ∈ deltas, d.length = w) {prev : Nat} (fits : prev < 256 ^ w) :
    ∃ pieces : List Bytes, (∀ p ∈ pieces, p.length = w) ∧ pieces.length = deltas.length ∧
      (∀ out, decodeLoop w deltas prev out = out ++ pieces.flatten) ∧
      ∀ out, encodeLoop w pieces prev out = out ++ deltas.flatten := by
  induction deltas generalizing prev with
  | nil => exact ⟨[], by simp, rfl, by simp [decodeLoop], by simp [encodeLoop]⟩
  | cons d deltas ih =>
      have width : d.length = w := widths d (by simp)
      have fitsHere : leNat d < 256 ^ w := width ▸ leNat_lt d
      have curr : wrappingAdd w prev (leNat d) < 256 ^ w := wrappingAdd_lt w prev (leNat d)
      obtain ⟨pieces, pieceWidths, count, decoded, encoded⟩ :=
        ih (fun e member => widths e (by simp [member])) curr
      refine ⟨leBytes w (wrappingAdd w prev (leNat d)) :: pieces, ?_, by simp [count], ?_, ?_⟩
      · intro p member
        rcases List.mem_cons.mp member with rfl | later
        · exact leBytes_length _ _
        · exact pieceWidths p later
      · intro out
        rw [decodeLoop, decoded, List.flatten_cons, List.append_assoc]
      · intro out
        have bytes : leBytes w (leNat d) = d := by rw [← width, leBytes_leNat]
        simp only [encodeLoop]
        rw [leNat_leBytes_of_lt curr, wrappingSub_wrappingAdd fits fitsHere, bytes, encoded,
          List.flatten_cons, List.append_assoc]

/-- **Encoding what was decoded gives the bytes back.** -/
theorem decode_encode {src : Bytes} {stride : Nat} (supported : Supported stride)
    (whole : stride ∣ src.length) :
    ∃ values, values.length = src.length ∧
      (∀ out, decode src stride out = .ok (out ++ values)) ∧
      ∀ out, encode values stride out = .ok (out ++ src) := by
  have divides : ¬ src.length % stride ≠ 0 := not_not.mpr (Nat.mod_eq_zero_of_dvd whole)
  obtain ⟨deltas, widths, rfl⟩ := exists_pieces whole
  cases deltas with
  | nil => exact ⟨[], rfl, by simp [decode], by simp [encode]⟩
  | cons first deltas =>
      have pos : 0 < stride := supported.pos
      have width : first.length = stride := widths first (by simp)
      have restWidths : ∀ d ∈ deltas, d.length = stride := fun d member =>
        widths d (by simp [member])
      have fits : leNat first < 256 ^ stride := width ▸ leNat_lt first
      obtain ⟨pieces, pieceWidths, count, decoded, encoded⟩ :=
        decodeLoop_encodeLoop deltas restWidths fits
      have nonempty : ∀ rest : Bytes, first ++ rest ≠ [] := by
        intro rest empty
        have := congrArg List.length empty
        simp only [List.length_append, List.length_nil] at this
        omega
      refine ⟨first ++ pieces.flatten, ?_, ?_, ?_⟩
      · have lengthPieces : pieces.flatten.length = stride * pieces.length := by
          simpa using length_flatMap_of_width (f := id) pieceWidths
        have lengthDeltas : deltas.flatten.length = stride * deltas.length := by
          simpa using length_flatMap_of_width (f := id) restWidths
        rw [List.flatten_cons, List.length_append, List.length_append, lengthPieces, lengthDeltas,
          count]
      · intro out
        rw [List.flatten_cons] at divides ⊢
        rw [decode, if_neg (nonempty _), if_neg pos.ne', if_neg divides, if_pos supported]
        simp only [← width, List.take_left, List.drop_left]
        rw [width, chunksExact_flatten pos restWidths, decoded, List.append_assoc]
      · intro out
        have long : ¬ (first ++ pieces.flatten).length < stride := by
          rw [List.length_append]
          omega
        rw [encode, if_neg (nonempty _), if_pos supported, if_neg long]
        simp only [← width, List.take_left, List.drop_left]
        rw [width, chunksExact_flatten pos pieceWidths, encoded, List.flatten_cons,
          List.append_assoc]

end Delta

/-! ## Pairs -/

namespace Rle

/-- A count of 16 bits and a value. -/
structure Pair (stride : Nat) where
  count : Nat
  value : Bytes
  fits : count ≤ maxCount
  width : value.length = stride

namespace Pair

variable {stride : Nat}

def bytes (p : Pair stride) : Bytes := leBytes 2 p.count ++ p.value

def run (p : Pair stride) : Bytes := (List.replicate p.count p.value).flatten

end Pair

/-- The loop appends a pair for the pending run and each run behind it. If all values together
are fewer than a count can hold, no run is cut in two: neighbouring pairs differ. -/
theorem encodeLoop_pairs {stride : Nat} (pieces : List Bytes)
    (widths : ∀ p ∈ pieces, p.length = stride) {prev : Bytes} (width : prev.length = stride)
    {count : Nat} (few : count + pieces.length < maxCount) :
    ∃ (first : Pair stride) (pairs : List (Pair stride)), first.value = prev ∧
      (∀ out, encodeLoop pieces prev count out = out ++ (first :: pairs).flatMap Pair.bytes) ∧
      (∀ p ∈ first :: pairs, p.count ≤ count + pieces.length) ∧
      (first :: pairs).IsChain fun p q => p.value ≠ q.value := by
  induction pieces generalizing prev count with
  | nil =>
      refine ⟨⟨count, prev, by simpa using few.le, width⟩, [], rfl, ?_, ?_, .singleton _⟩
      · intro out
        simp [encodeLoop, Pair.bytes]
      · simp
  | cons p pieces ih =>
      have restWidths : ∀ q ∈ pieces, q.length = stride := fun q member =>
        widths q (by simp [member])
      rw [List.length_cons] at few
      by_cases run : p = prev
      · have more : count + 1 + pieces.length < maxCount := by omega
        obtain ⟨first, pairs, value, encoded, counts, chain⟩ := ih restWidths width more
        refine ⟨first, pairs, value, fun out => ?_, fun q member => ?_, chain⟩
        · rw [encodeLoop, if_pos ⟨run, by omega⟩, encoded]
        · have bound := counts q member
          rw [List.length_cons]
          omega
      · have fresh : 1 + pieces.length < maxCount := by omega
        obtain ⟨first, pairs, value, encoded, counts, chain⟩ :=
          ih restWidths (widths p (by simp)) fresh
        refine ⟨⟨count, prev, by omega, width⟩, first :: pairs, rfl, fun out => ?_,
          List.forall_mem_cons.mpr ⟨by simp, fun q member => ?_⟩, .cons_cons ?_ chain⟩
        · rw [encodeLoop, if_neg fun both => run both.1, encoded, List.append_assoc out,
            List.append_assoc]
          rfl
        · have bound := counts q member
          rw [List.length_cons]
          omega
        · exact fun same => run (value.symm.trans same.symm)

/-- **The runs of few values**: a pair for each, and none reaches the greatest count. -/
theorem encode_pairs {stride : Nat} (pos : 0 < stride) {pieces : List Bytes}
    (widths : ∀ p ∈ pieces, p.length = stride) (few : pieces.length < maxCount) :
    ∃ pairs : List (Pair stride),
      (∀ out, encode pieces.flatten stride out = .ok (out ++ pairs.flatMap Pair.bytes)) ∧
      (∀ p ∈ pairs, p.count ≤ pieces.length) ∧ pairs.IsChain fun p q => p.value ≠ q.value := by
  cases pieces with
  | nil => exact ⟨[], by simp [encode], by simp, .nil⟩
  | cons first pieces =>
      have width : first.length = stride := widths first (by simp)
      have restWidths : ∀ p ∈ pieces, p.length = stride := fun p member =>
        widths p (by simp [member])
      rw [List.length_cons] at few
      have fewer : 1 + pieces.length < maxCount := by omega
      obtain ⟨head, pairs, _, encoded, counts, chain⟩ :=
        encodeLoop_pairs pieces restWidths width fewer
      refine ⟨head :: pairs, fun out => ?_, fun p member => ?_, chain⟩
      · have nonempty : first ++ pieces.flatten ≠ [] := by
          intro empty
          have length := congrArg List.length empty
          rw [List.length_append, List.length_nil] at length
          omega
        have long : ¬ ((first ++ pieces.flatten).length < stride ∨ stride = 0) := by
          rw [List.length_append]
          omega
        rw [List.flatten_cons, encode, if_neg nonempty, if_neg long, ← encoded]
        rw [← width, List.take_left, List.drop_left, width, chunksExact_flatten pos restWidths]
      · have bound := counts p member
        rw [List.length_cons]
        omega

/-- A sequence of pairs is decoded to the runs, one after the other. -/
theorem decode_pairs {stride : Nat} (pairs : List (Pair stride)) (out : Bytes) :
    decode (pairs.flatMap Pair.bytes) stride out = .ok (out ++ pairs.flatMap Pair.run) := by
  induction pairs generalizing out with
  | nil =>
      rw [List.flatMap_nil, decode, if_pos rfl, List.flatMap_nil, List.append_nil]
  | cons p pairs ih =>
      rw [List.flatMap_cons, Pair.bytes, decode_pair p.width p.fits, ih, List.flatMap_cons,
        Pair.run, List.append_assoc]

/-- Bytes in the length of whole pairs are pairs. -/
theorem exists_pairs {src : Bytes} {stride : Nat} (whole : 2 + stride ∣ src.length) :
    ∃ pairs : List (Pair stride), src = pairs.flatMap Pair.bytes := by
  obtain ⟨pieces, widths, rfl⟩ := exists_pieces whole
  clear whole
  induction pieces with
  | nil => exact ⟨[], rfl⟩
  | cons piece pieces ih =>
      have width : piece.length = 2 + stride := widths piece (by simp)
      have rest : ∀ p ∈ pieces, p.length = 2 + stride := fun p member => widths p (by simp [member])
      have count : (piece.take 2).length = 2 := by
        rw [List.length_take]
        omega
      have fits : leNat (piece.take 2) ≤ maxCount := by
        have below := leNat_lt (piece.take 2)
        rw [count] at below
        unfold maxCount
        omega
      have same : leBytes 2 (leNat (piece.take 2)) ++ piece.drop 2 = piece := by
        have back := leBytes_leNat (piece.take 2)
        rw [count] at back
        rw [back, List.take_append_drop]
      obtain ⟨pairs, flat⟩ := ih rest
      refine ⟨⟨leNat (piece.take 2), piece.drop 2, fits, ?_⟩ :: pairs, ?_⟩
      · rw [List.length_drop]
        omega
      · rw [List.flatten_cons, List.flatMap_cons, flat, Pair.bytes, same]

/-- Bytes behind the last whole pair are an error. -/
theorem decode_ragged {src : Bytes} {stride : Nat} (ragged : ¬ 2 + stride ∣ src.length)
    (out : Bytes) : decode src stride out = .err .truncated := by
  induction src, out using decode.induct stride with
  | case1 out => exact (ragged (Nat.dvd_zero _)).elim
  | case2 src out nonempty short => rw [decode, if_neg nonempty, if_pos short]
  | case3 src out nonempty long count value ih =>
      rw [decode, if_neg nonempty, if_neg long]
      refine ih fun whole => ragged ?_
      rw [List.length_drop] at whole
      have split : src.length = (src.length - (2 + stride)) + (2 + stride) := by omega
      rw [split]
      exact Nat.dvd_add whole (Nat.dvd_refl _)

end Rle

/-! ## Length-prefixed strings -/

/-- Bytes that are a string are its UTF-8 bytes. -/
theorem fromUtf8_eq_some {bytes : Bytes} {s : String} :
    fromUtf8 bytes = some s ↔ utf8 s = bytes := by
  constructor
  · intro valid
    rw [fromUtf8, String.fromUTF8?] at valid
    split at valid
    · cases valid
      rfl
    · cases valid
  · rintro rfl
    exact fromUtf8_utf8 s

theorem decodeEntry_eq_ok {src rest : Bytes} {s : String} :
    decodeEntry src = .ok (s, rest) ↔ (utf8 s).length < 2 ^ 32 ∧ src = encodeEntry s ++ rest := by
  constructor
  · intro read
    unfold decodeEntry at read
    split at read
    · cases read
    · rename_i long
      simp only at read
      split at read
      · cases read
      · rename_i inside
        split at read
        · cases read
        · rename_i t valid
          cases read
          have prefixLength : (src.take 4).length = 4 := by
            rw [List.length_take]
            omega
          have small := leNat_lt (src.take 4)
          rw [prefixLength] at small
          have bytes := fromUtf8_eq_some.mp valid
          have length : (utf8 s).length = leNat (src.take 4) := by
            rw [bytes, List.length_take]
            omega
          have back := leBytes_leNat (src.take 4)
          rw [prefixLength] at back
          refine ⟨length ▸ small, ?_⟩
          rw [encodeEntry, length, back, bytes, List.append_assoc, List.take_append_drop,
            List.take_append_drop]
  · rintro ⟨fits, rfl⟩
    exact decodeEntry_encodeEntry fits rest

theorem decodeEntry_ne_panic (src : Bytes) : decodeEntry src ≠ .panic := by
  unfold decodeEntry
  split
  · simp
  · simp only
    split
    · simp
    · split <;> simp

namespace StringPlain

theorem decode_of_err {src : Bytes} (nonempty : src ≠ []) {e : EncodingError}
    (entry : decodeEntry src = .err e) (out : List String) : decode src out = .err e := by
  rw [decode, if_neg nonempty]
  split
  · rename_i read
    rw [entry] at read
    cases read
  · rename_i read
    rw [entry] at read
    cases read
    rfl
  · rename_i read
    rw [entry] at read
    cases read

/-- **Plain string blocks are sequences of entries.** -/
theorem decode_eq_ok_iff {src : Bytes} {out out' : List String} :
    decode src out = .ok out' ↔ ∃ strings : List String,
      (∀ s ∈ strings, (utf8 s).length < 2 ^ 32) ∧ src = strings.flatMap encodeEntry ∧
        out' = out ++ strings := by
  constructor
  · intro read
    induction src, out using decode.induct with
    | case1 out =>
        rw [decode, if_pos rfl] at read
        cases read
        exact ⟨[], by simp, rfl, by simp⟩
    | case2 src out nonempty s rest entry ih =>
        obtain ⟨fits, rfl⟩ := decodeEntry_eq_ok.mp entry
        rw [decode_entry fits] at read
        obtain ⟨strings, fitsRest, rfl, rfl⟩ := ih read
        refine ⟨s :: strings, ?_, by rw [List.flatMap_cons], by simp⟩
        intro t member
        rcases List.mem_cons.mp member with rfl | later
        · exact fits
        · exact fitsRest t later
    | case3 src out nonempty e entry =>
        rw [decode_of_err nonempty entry] at read
        cases read
    | case4 src out nonempty entry => exact (decodeEntry_ne_panic src entry).elim
  · rintro ⟨strings, fits, rfl, rfl⟩
    exact decode_encode fits out

theorem decode_ne_panic (src : Bytes) (out : List String) : decode src out ≠ .panic := by
  induction src, out using decode.induct with
  | case1 out =>
      rw [decode, if_pos rfl]
      simp
  | case2 src out nonempty s rest entry ih =>
      obtain ⟨fits, rfl⟩ := decodeEntry_eq_ok.mp entry
      rw [decode_entry fits]
      exact ih
  | case3 src out nonempty e entry =>
      rw [decode_of_err nonempty entry]
      simp
  | case4 src out nonempty entry => exact (decodeEntry_ne_panic src entry).elim

end StringPlain

/-! ## Dictionaries -/

namespace StringDictionary

theorem decodeDict_eq_ok_iff {n : Nat} {src rest : Bytes} {dict dict' : List String} :
    decodeDict n src dict = .ok (dict', rest) ↔ ∃ entries : List String,
      entries.length = n ∧ (∀ s ∈ entries, (utf8 s).length < 2 ^ 32) ∧
        src = entries.flatMap encodeEntry ++ rest ∧ dict' = dict ++ entries := by
  constructor
  · intro read
    induction n generalizing src dict with
    | zero =>
        cases read
        exact ⟨[], rfl, by simp, rfl, by simp⟩
    | succ n ih =>
        obtain ⟨⟨s, behind⟩, entry, readRest⟩ := Outcome.bind_eq_ok.mp read
        obtain ⟨fits, rfl⟩ := decodeEntry_eq_ok.mp entry
        obtain ⟨entries, count, fitsRest, rfl, rfl⟩ := ih readRest
        refine ⟨s :: entries, by simp [count], ?_, by simp, by simp⟩
        intro t member
        rcases List.mem_cons.mp member with rfl | later
        · exact fits
        · exact fitsRest t later
  · rintro ⟨entries, rfl, fits, rfl, rfl⟩
    exact decodeDict_entries fits rest dict

theorem decodeDict_ne_panic (n : Nat) (src : Bytes) (dict : List String) :
    decodeDict n src dict ≠ .panic := by
  induction n generalizing src dict with
  | zero => simp [decodeDict]
  | succ n ih =>
      rw [decodeDict]
      cases entry : decodeEntry src with
      | ok found => exact ih found.2 (dict ++ [found.1])
      | err e => simp
      | panic => exact (decodeEntry_ne_panic src entry).elim

/-- Indices are read one by one, and each must be below the number of entries. -/
theorem decodeIndices_eq_ok_iff {dict : List String} (few : dict.length < 2 ^ 32) {src : Bytes}
    {out out' : List String} :
    decodeIndices dict src out = .ok out' ↔ ∃ indices : List Nat,
      (∀ i ∈ indices, i < dict.length) ∧ src = indices.flatMap (leBytes 4) ∧
        out' = out ++ indices.filterMap fun i => dict[i]? := by
  constructor
  · intro read
    induction src, out using decodeIndices.induct dict with
    | case1 out =>
        rw [decodeIndices, if_pos rfl] at read
        cases read
        exact ⟨[], by simp, rfl, by simp⟩
    | case2 src out nonempty short =>
        rw [decodeIndices, if_neg nonempty, if_pos short] at read
        cases read
    | case3 src out nonempty long missing =>
        rw [decodeIndices, if_neg nonempty, if_neg long, missing] at read
        cases read
    | case4 src out nonempty long s found ih =>
        rw [decodeIndices, if_neg nonempty, if_neg long, found] at read
        obtain ⟨indices, below, rest, rfl⟩ := ih read
        have count : (src.take 4).length = 4 := by
          rw [List.length_take]
          omega
        have back := leBytes_leNat (src.take 4)
        rw [count] at back
        refine ⟨leNat (src.take 4) :: indices, ?_, ?_, ?_⟩
        · intro i member
          rcases List.mem_cons.mp member with rfl | later
          · exact (List.getElem?_eq_some_iff.mp found).1
          · exact below i later
        · rw [List.flatMap_cons, back, ← rest, List.take_append_drop]
        · rw [List.filterMap_cons, found, List.append_assoc, List.singleton_append]
  · rintro ⟨indices, below, rfl, rfl⟩
    induction indices generalizing out with
    | nil =>
        rw [List.flatMap_nil, decodeIndices, if_pos rfl]
        simp
    | cons i indices ih =>
        have inside : i < dict.length := below i (by simp)
        have entry : dict[i]? = some dict[i] := List.getElem?_eq_getElem inside
        have nonempty : leBytes 4 i ++ indices.flatMap (leBytes 4) ≠ [] := by simp [leBytes]
        rw [List.flatMap_cons, decodeIndices, if_neg nonempty, if_neg (by simp),
          List.take_left' (leBytes_length _ _), List.drop_left' (leBytes_length _ _),
          leNat_leBytes_of_lt (w := 4) (by omega), entry]
        simp only
        rw [ih fun j member => below j (by simp [member]), List.filterMap_cons, entry,
          List.append_assoc, List.singleton_append]

theorem decodeIndices_ne_panic (dict : List String) (src : Bytes) (out : List String) :
    decodeIndices dict src out ≠ .panic := by
  induction src, out using decodeIndices.induct dict with
  | case1 out =>
      rw [decodeIndices, if_pos rfl]
      simp
  | case2 src out nonempty short =>
      rw [decodeIndices, if_neg nonempty, if_pos short]
      simp
  | case3 src out nonempty long missing =>
      rw [decodeIndices, if_neg nonempty, if_neg long, missing]
      simp
  | case4 src out nonempty long s found ih =>
      rw [decodeIndices, if_neg nonempty, if_neg long, found]
      exact ih

/-- **Dictionary blocks are a count, that many entries, and indices below the count.** -/
theorem decode_eq_ok_iff {src : Bytes} {out out' : List String} :
    decode src out = .ok out' ↔ ∃ (entries : List String) (indices : List Nat),
      entries.length < 2 ^ 32 ∧ (∀ s ∈ entries, (utf8 s).length < 2 ^ 32) ∧
        (∀ i ∈ indices, i < entries.length) ∧
        src = leBytes 4 entries.length ++ entries.flatMap encodeEntry ++
          indices.flatMap (leBytes 4) ∧
        out' = out ++ indices.filterMap fun i => entries[i]? := by
  constructor
  · intro read
    unfold decode at read
    split at read
    · cases read
    · rename_i long
      obtain ⟨⟨dict, rest⟩, header, read⟩ := Outcome.bind_eq_ok.mp read
      obtain ⟨entries, count, fits, body, same⟩ := decodeDict_eq_ok_iff.mp header
      rw [List.nil_append] at same
      subst same
      have prefixLength : (src.take 4).length = 4 := by
        rw [List.length_take]
        omega
      have small := leNat_lt (src.take 4)
      rw [prefixLength, ← count] at small
      obtain ⟨indices, below, rfl, rfl⟩ := (decodeIndices_eq_ok_iff small).mp read
      have back := leBytes_leNat (src.take 4)
      rw [prefixLength, ← count] at back
      refine ⟨dict, indices, small, fits, below, ?_, rfl⟩
      rw [back, List.append_assoc, ← body, List.take_append_drop]
  · rintro ⟨entries, indices, few, fits, below, rfl, rfl⟩
    have head : (leBytes 4 entries.length ++ entries.flatMap encodeEntry ++
        indices.flatMap (leBytes 4)).take 4 = leBytes 4 entries.length := by
      rw [List.append_assoc]
      exact List.take_left' (leBytes_length _ _)
    have tail : (leBytes 4 entries.length ++ entries.flatMap encodeEntry ++
        indices.flatMap (leBytes 4)).drop 4 =
          entries.flatMap encodeEntry ++ indices.flatMap (leBytes 4) := by
      rw [List.append_assoc]
      exact List.drop_left' (leBytes_length _ _)
    rw [decode, if_neg (by simp), head, tail, leNat_leBytes_of_lt (w := 4) (by omega),
      decodeDict_entries fits, Outcome.ok_bind]
    exact (decodeIndices_eq_ok_iff few).mpr ⟨indices, below, rfl, rfl⟩

theorem decode_ne_panic (src : Bytes) (out : List String) : decode src out ≠ .panic := by
  unfold decode
  split
  · simp
  · cases header : decodeDict (leNat (src.take 4)) (src.drop 4) [] with
    | ok found => exact decodeIndices_ne_panic found.1 found.2 out
    | err e => simp
    | panic => exact (decodeDict_ne_panic _ _ _ header).elim

/-- The dictionary holds each distinct string once. -/
theorem buildDict_perm (src : List String) : (buildDict src).Perm src.dedup := by
  have nodup : ∀ (rest dict : List String), dict.Nodup →
      (rest.foldl (fun dict s => if s ∈ dict then dict else dict ++ [s]) dict).Nodup := by
    intro rest
    induction rest with
    | nil => exact fun dict distinct => distinct
    | cons s rest ih =>
        intro dict distinct
        rw [List.foldl_cons]
        by_cases known : s ∈ dict
        · rw [if_pos known]
          exact ih dict distinct
        · rw [if_neg known]
          exact ih _ (List.nodup_append.mpr ⟨distinct, by simp, by
            rintro t before _ here rfl
            exact known (List.mem_singleton.mp here ▸ before)⟩)
  refine (List.perm_ext_iff_of_nodup (nodup src [] .nil) (List.nodup_dedup src)).mpr fun s => ?_
  rw [List.mem_dedup]
  exact mem_buildDict

end StringDictionary

/-! ## All codecs -/

/-- A string codec appends to its output. -/
theorem StringCodec.encode_append (codec : StringCodec) (src : List String) (out : Bytes) :
    codec.encode src out = out ++ codec.encode src [] := by
  cases codec with
  | plain => simp [encode, StringPlain.encode]
  | dictionary => simp [encode, StringDictionary.encode]

/-- **All codecs are lossless and append only.** Whatever the output already holds, encoding
appends bytes, and decoding these appends what was encoded; for strings as long as their
lengths and the number of distinct strings fit in 32 bits. Plain and delta encodings are
without redundancy: encoding undoes decoding as well. -/
theorem codecs_lossless :
    (∀ (codec : Codec) (w : Nat), Supported w → ∀ src : Bytes, w ∣ src.length →
      ∃ encoded, (∀ out, codec.encode src w out = .ok (out ++ encoded)) ∧
        ∀ out, codec.decode encoded w out = .ok (out ++ src)) ∧
    (∀ (codec : StringCodec) (src : List String), (∀ s ∈ src, (utf8 s).length < 2 ^ 32) →
      src.dedup.length < 2 ^ 32 →
      ∃ encoded, (∀ out, codec.encode src out = out ++ encoded) ∧
        ∀ out, codec.decode encoded out = .ok (out ++ src)) ∧
    ∀ codec : Codec, codec = .plain ∨ codec = .delta → ∀ w : Nat, Supported w →
      ∀ src : Bytes, w ∣ src.length →
        ∃ values, (∀ out, codec.decode src w out = .ok (out ++ values)) ∧
          ∀ out, codec.encode values w out = .ok (out ++ src) := by
  refine ⟨?_, ?_, ?_⟩
  · intro codec w supported src whole
    obtain ⟨encoded, _, encodes, decodes⟩ := codec.encode_decode supported whole
    exact ⟨encoded, encodes, decodes⟩
  · intro codec src short few
    have fits : codec.Fits src :=
      ⟨short, fun _ => (StringDictionary.buildDict_perm src).length_eq ▸ few⟩
    exact ⟨codec.encode src [], codec.encode_append src, StringCodec.decode_encode fits⟩
  · intro codec which w supported src whole
    rcases which with rfl | rfl
    · exact ⟨src, Plain.decode_whole supported.pos whole, fun _ => rfl⟩
    · obtain ⟨values, _, decodes, encodes⟩ := Delta.decode_encode supported whole
      exact ⟨values, decodes, encodes⟩

/-- Run lengths of two values, a dictionary of one string, and differences that wrap. -/
theorem codecs_lossless_two :
    (∃ encoded, (∀ out, Codec.rle.encode [7, 7, 3] 1 out = .ok (out ++ encoded)) ∧
      ∀ out, Codec.rle.decode encoded 1 out = .ok (out ++ [7, 7, 3])) ∧
    (∃ encoded, (∀ out, StringCodec.dictionary.encode ["a", "a"] out = out ++ encoded) ∧
      ∀ out, StringCodec.dictionary.decode encoded out = .ok (out ++ ["a", "a"])) ∧
    ∃ values, (∀ out, Codec.delta.decode [200, 100] 1 out = .ok (out ++ values)) ∧
      ∀ out, Codec.delta.encode values 1 out = .ok (out ++ [200, 100]) := by
  refine ⟨codecs_lossless.1 .rle 1 (by decide) _ (Nat.one_dvd _),
    codecs_lossless.2.1 .dictionary _ ?_ (by decide),
    codecs_lossless.2.2 .delta (.inr rfl) 1 (by decide) _ (Nat.one_dvd _)⟩
  intro s member
  have same : s = "a" := by simpa using member
  rw [same]
  decide

/-- What follows if a decoder returns on some inputs and fails on all others. -/
theorem accepts_of_cases {accepted : Prop} {decoded : Outcome EncodingError Bytes}
    {stands : Bytes → Prop}
    (cases : (accepted ∧ ∃ out, stands out ∧ decoded = .ok out) ∨
      (¬ accepted ∧ decoded = .err .truncated)) :
    decoded ≠ .panic ∧ ((∃ out, decoded = .ok out) ↔ accepted) ∧
      ∀ out, decoded = .ok out → stands out := by
  rcases cases with ⟨yes, out, good, rfl⟩ | ⟨no, rfl⟩
  · refine ⟨nofun, ⟨fun _ => yes, fun _ => ⟨out, rfl⟩⟩, fun out' same => ?_⟩
    cases same
    exact good
  · refine ⟨nofun, ⟨fun returned => ?_, fun yes => (no yes).elim⟩, nofun⟩
    obtain ⟨_, same⟩ := returned
    cases same

/-- Plain and delta blocks are whole values. -/
theorem Codec.decode_values {codec : Codec} (which : codec = .plain ∨ codec = .delta) {w : Nat}
    (supported : Supported w) (src out : Bytes) :
    codec.decode src w out ≠ .panic ∧
      ((∃ out', codec.decode src w out = .ok out') ↔ w ∣ src.length) ∧
      ∀ out', codec.decode src w out = .ok out' →
        ∃ values, values.length = src.length ∧ out' = out ++ values := by
  refine accepts_of_cases ?_
  by_cases whole : w ∣ src.length
  · rcases which with rfl | rfl
    · exact .inl ⟨whole, _, ⟨src, rfl, rfl⟩, Plain.decode_whole supported.pos whole out⟩
    · obtain ⟨values, count, decodes, _⟩ := Delta.decode_encode supported whole
      exact .inl ⟨whole, _, ⟨values, count, rfl⟩, decodes out⟩
  · rcases which with rfl | rfl
    · exact .inr ⟨whole, Plain.decode_ragged supported.pos whole out⟩
    · exact .inr ⟨whole, Delta.decode_ragged supported whole out⟩

/-- Run lengths are whole pairs. -/
theorem Rle.decode_runs (w : Nat) (src out : Bytes) :
    decode src w out ≠ .panic ∧ ((∃ out', decode src w out = .ok out') ↔ 2 + w ∣ src.length) ∧
      ∀ out', decode src w out = .ok out' → ∃ pairs : List (Pair w),
        src = pairs.flatMap Pair.bytes ∧ out' = out ++ pairs.flatMap Pair.run := by
  refine accepts_of_cases ?_
  by_cases whole : 2 + w ∣ src.length
  · obtain ⟨pairs, rfl⟩ := exists_pairs whole
    exact .inl ⟨whole, _, ⟨pairs, rfl, rfl⟩, decode_pairs pairs out⟩
  · exact .inr ⟨whole, decode_ragged whole out⟩

theorem Codec.decode_ne_panic (codec : Codec) {w : Nat} (supported : Supported w)
    (src out : Bytes) : codec.decode src w out ≠ .panic := by
  cases codec with
  | plain => exact (Codec.decode_values (.inl rfl) supported src out).1
  | delta => exact (Codec.decode_values (.inr rfl) supported src out).1
  | rle => exact (Rle.decode_runs w src out).1

theorem StringCodec.decode_ne_panic (codec : StringCodec) (src : Bytes) (out : List String) :
    codec.decode src out ≠ .panic := by
  cases codec with
  | plain => exact StringPlain.decode_ne_panic src out
  | dictionary => exact StringDictionary.decode_ne_panic src out

/-- **Decoders accept exactly their formats.** No bytes make a decoder panic. Plain and delta
blocks are whole values, run lengths are whole pairs, plain strings are entries, and a
dictionary is a count, that many entries and indices below the count; in each case the
output is what the format stands for, appended to what was there. -/
theorem decoders_accept :
    (∀ (codec : Codec) (w : Nat), Supported w → ∀ src out, codec.decode src w out ≠ .panic) ∧
    (∀ (codec : StringCodec) src out, codec.decode src out ≠ .panic) ∧
    (∀ codec : Codec, codec = .plain ∨ codec = .delta → ∀ w : Nat, Supported w → ∀ src out,
      ((∃ out', codec.decode src w out = .ok out') ↔ w ∣ src.length) ∧
      ∀ out', codec.decode src w out = .ok out' →
        ∃ values, values.length = src.length ∧ out' = out ++ values) ∧
    (∀ w : Nat, Supported w → ∀ src out,
      ((∃ out', Rle.decode src w out = .ok out') ↔ 2 + w ∣ src.length) ∧
      ∀ out', Rle.decode src w out = .ok out' → ∃ pairs : List (Rle.Pair w),
        src = pairs.flatMap Rle.Pair.bytes ∧ out' = out ++ pairs.flatMap Rle.Pair.run) ∧
    (∀ src out out', StringPlain.decode src out = .ok out' ↔ ∃ strings : List String,
      (∀ s ∈ strings, (utf8 s).length < 2 ^ 32) ∧ src = strings.flatMap encodeEntry ∧
        src = StringPlain.encode strings [] ∧ out' = out ++ strings) ∧
    ∀ src out out', StringDictionary.decode src out = .ok out' ↔
      ∃ (entries : List String) (indices : List Nat), entries.length < 2 ^ 32 ∧
        (∀ s ∈ entries, (utf8 s).length < 2 ^ 32) ∧ (∀ i ∈ indices, i < entries.length) ∧
        src = leBytes 4 entries.length ++ entries.flatMap encodeEntry ++
          indices.flatMap (leBytes 4) ∧
        out' = out ++ indices.filterMap fun i => entries[i]? := by
  refine ⟨?_, ?_, ?_, ?_, ?_, ?_⟩
  · exact fun codec w supported src out => codec.decode_ne_panic supported src out
  · exact StringCodec.decode_ne_panic
  · exact fun codec which w supported src out => (Codec.decode_values which supported src out).2
  · exact fun w _ src out => (Rle.decode_runs w src out).2
  · intro src out out'
    rw [StringPlain.decode_eq_ok_iff]
    refine exists_congr fun strings => and_congr_right fun _ => ?_
    rw [StringPlain.encode, List.nil_append]
    constructor
    · rintro ⟨same, all⟩
      exact ⟨same, same, all⟩
    · rintro ⟨same, _, all⟩
      exact ⟨same, all⟩
  · exact fun src out out' => StringDictionary.decode_eq_ok_iff

end TinyOlap.Encoding
