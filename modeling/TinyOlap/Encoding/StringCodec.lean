import TinyOlap.Encoding.Codec

/-!
# Codecs for strings

Strings have no stride, so they have codecs of their own. `Plain` stores the length
and the bytes of each string; `Dictionary` stores every distinct string once, in the
order of first appearance, and then one index for each string.

Lengths, indices and the number of entries take 32 bits. As long as they fit,
decoding what was encoded appends the strings that were given
(`StringCodec.decode_encode`); and they fit whenever the encoded block itself is
shorter than `2 ^ 32` bytes (`StringCodec.fits_of_length`).
-/

set_option autoImplicit false

namespace TinyOlap.Encoding

open Library

/-! ## UTF-8 -/

/-- The UTF-8 bytes of a string. -/
def utf8 (s : String) : Bytes := s.toByteArray.data.toList

/-- The string with the given bytes, if they are valid UTF-8. -/
def fromUtf8 (bytes : Bytes) : Option String := String.fromUTF8? ⟨bytes.toArray⟩

theorem fromUtf8_utf8 (s : String) : fromUtf8 (utf8 s) = some s := by
  have same : (⟨(utf8 s).toArray⟩ : ByteArray) = s.toByteArray := by simp [utf8]
  rw [fromUtf8, same, String.fromUTF8?, dif_pos s.isValidUTF8]
  rfl

/-! ## Length-prefixed strings -/

/-- `[u32 LE byte_len][utf8 bytes]`. -/
def encodeEntry (s : String) : Bytes := leBytes 4 (utf8 s).length ++ utf8 s

/-- Read one length-prefixed string and return the bytes behind it. -/
def decodeEntry (src : Bytes) : Outcome EncodingError (String × Bytes) :=
  if src.length < 4 then .err .truncated
  else
    let len := leNat (src.take 4)
    let body := src.drop 4
    if body.length < len then .err .truncated
    else
      match fromUtf8 (body.take len) with
      | none => .err .invalidUtf8
      | some s => .ok (s, body.drop len)

theorem decodeEntry_encodeEntry {s : String} (fits : (utf8 s).length < 2 ^ 32) (rest : Bytes) :
    decodeEntry (encodeEntry s ++ rest) = .ok (s, rest) := by
  have length : (encodeEntry s ++ rest).length = 4 + (utf8 s).length + rest.length := by
    simp [encodeEntry, Nat.add_assoc]
  have head : (encodeEntry s ++ rest).take 4 = leBytes 4 (utf8 s).length := by
    rw [encodeEntry, List.append_assoc]
    exact List.take_left' (leBytes_length _ _)
  have tail : (encodeEntry s ++ rest).drop 4 = utf8 s ++ rest := by
    rw [encodeEntry, List.append_assoc]
    exact List.drop_left' (leBytes_length _ _)
  rw [decodeEntry, if_neg (by omega)]
  simp only [head, tail, leNat_leBytes_of_lt (w := 4) (by omega : (utf8 s).length < 256 ^ 4)]
  rw [if_neg (by rw [List.length_append]; omega), List.take_left, fromUtf8_utf8, List.drop_left]

/-- Reading an entry leaves fewer bytes. -/
theorem decodeEntry_shorter {src rest : Bytes} {s : String}
    (read : decodeEntry src = .ok (s, rest)) : rest.length < src.length := by
  unfold decodeEntry at read
  split at read
  · cases read
  · rename_i long
    simp only at read
    split at read
    · cases read
    · split at read
      · cases read
      · cases read
        simp only [List.length_drop]
        omega

/-! ## Plain -/

namespace StringPlain

def encode (src : List String) (out : Bytes) : Bytes := out ++ src.flatMap encodeEntry

def decode (src : Bytes) (out : List String) : Outcome EncodingError (List String) :=
  if src = [] then .ok out
  else
    match _ : decodeEntry src with
    | .ok (s, rest) => decode rest (out ++ [s])
    | .err e => .err e
    | .panic => .panic
termination_by src.length
decreasing_by exact decodeEntry_shorter (by assumption)

theorem decode_entry {s : String} (fits : (utf8 s).length < 2 ^ 32) (rest : Bytes)
    (out : List String) : decode (encodeEntry s ++ rest) out = decode rest (out ++ [s]) := by
  have nonempty : encodeEntry s ++ rest ≠ [] := by
    intro empty
    have := congrArg List.length empty
    simp [encodeEntry] at this
  rw [decode, if_neg nonempty]
  split
  · rename_i t rest' read
    rw [decodeEntry_encodeEntry fits] at read
    cases read
    rfl
  · rename_i e read
    rw [decodeEntry_encodeEntry fits] at read
    cases read
  · rename_i read
    rw [decodeEntry_encodeEntry fits] at read
    cases read

theorem decode_encode {src : List String} (fits : ∀ s ∈ src, (utf8 s).length < 2 ^ 32)
    (out : List String) : decode (src.flatMap encodeEntry) out = .ok (out ++ src) := by
  induction src generalizing out with
  | nil => rw [List.flatMap_nil, decode]; simp
  | cons s src ih =>
      rw [List.flatMap_cons, decode_entry (fits s (by simp)),
        ih fun t member => fits t (by simp [member])]
      simp

end StringPlain

/-! ## Dictionary -/

namespace StringDictionary

/-- The distinct strings in the order of first appearance. -/
def buildDict (src : List String) : List String :=
  src.foldl (fun dict s => if s ∈ dict then dict else dict ++ [s]) []

/-- The number of entries, the entries, and for each string its entry's index. -/
def encode (src : List String) (out : Bytes) : Bytes :=
  let dict := buildDict src
  out ++ leBytes 4 dict.length ++ dict.flatMap encodeEntry ++
    src.flatMap fun s => leBytes 4 (dict.idxOf s)

/-- `for _ in 0..dict_len`: read that many entries. -/
def decodeDict : Nat → Bytes → List String → Outcome EncodingError (List String × Bytes)
  | 0, src, dict => .ok (dict, src)
  | n + 1, src, dict => do
      let (s, rest) ← decodeEntry src
      decodeDict n rest (dict ++ [s])

/-- Read indices up to the end of the block. -/
def decodeIndices (dict : List String) (src : Bytes) (out : List String) :
    Outcome EncodingError (List String) :=
  if src = [] then .ok out
  else if src.length < 4 then .err .truncated
  else
    match dict[leNat (src.take 4)]? with
    | none => .err .corrupt
    | some s => decodeIndices dict (src.drop 4) (out ++ [s])
termination_by src.length
decreasing_by
  rw [List.length_drop]
  omega

def decode (src : Bytes) (out : List String) : Outcome EncodingError (List String) :=
  if src.length < 4 then .err .truncated
  else do
    let (dict, rest) ← decodeDict (leNat (src.take 4)) (src.drop 4) []
    decodeIndices dict rest out

theorem mem_foldl_dict (src dict : List String) (s : String) :
    s ∈ src.foldl (fun dict s => if s ∈ dict then dict else dict ++ [s]) dict ↔
      s ∈ dict ∨ s ∈ src := by
  induction src generalizing dict with
  | nil => simp
  | cons t src ih =>
      rw [List.foldl_cons, ih]
      by_cases known : t ∈ dict
      · rw [if_pos known, List.mem_cons]
        constructor
        · rintro (before | later)
          · exact .inl before
          · exact .inr (.inr later)
        · rintro (before | rfl | later)
          · exact .inl before
          · exact .inl known
          · exact .inr later
      · rw [if_neg known]
        simp [or_assoc]

@[simp] theorem mem_buildDict {src : List String} {s : String} : s ∈ buildDict src ↔ s ∈ src := by
  simp [buildDict, mem_foldl_dict]

theorem decodeDict_entries {entries : List String}
    (fits : ∀ s ∈ entries, (utf8 s).length < 2 ^ 32) (rest : Bytes) (dict : List String) :
    decodeDict entries.length (entries.flatMap encodeEntry ++ rest) dict =
      .ok (dict ++ entries, rest) := by
  induction entries generalizing dict with
  | nil => simp [decodeDict]
  | cons s entries ih =>
      rw [List.length_cons, decodeDict, List.flatMap_cons, List.append_assoc,
        decodeEntry_encodeEntry (fits s (by simp))]
      simp only [Outcome.ok_bind]
      rw [ih fun t member => fits t (by simp [member])]
      simp

theorem decodeIndices_index {dict : List String} {s : String} (member : s ∈ dict)
    (fits : dict.length < 2 ^ 32) (rest : Bytes) (out : List String) :
    decodeIndices dict (leBytes 4 (dict.idxOf s) ++ rest) out =
      decodeIndices dict rest (out ++ [s]) := by
  have inside : dict.idxOf s < dict.length := List.idxOf_lt_length_iff.mpr member
  have nonempty : leBytes 4 (dict.idxOf s) ++ rest ≠ [] := by simp [leBytes]
  have head : (leBytes 4 (dict.idxOf s) ++ rest).take 4 = leBytes 4 (dict.idxOf s) :=
    List.take_left' (leBytes_length _ _)
  have tail : (leBytes 4 (dict.idxOf s) ++ rest).drop 4 = rest :=
    List.drop_left' (leBytes_length _ _)
  have entry : dict[dict.idxOf s]? = some s := by
    rw [List.getElem?_eq_getElem inside, List.getElem_idxOf]
  rw [decodeIndices, if_neg nonempty, if_neg (by simp), head, tail,
    leNat_leBytes_of_lt (w := 4) (by omega), entry]

theorem decodeIndices_encode {dict src : List String} (members : ∀ s ∈ src, s ∈ dict)
    (fits : dict.length < 2 ^ 32) (out : List String) :
    decodeIndices dict (src.flatMap fun s => leBytes 4 (dict.idxOf s)) out = .ok (out ++ src) := by
  induction src generalizing out with
  | nil => rw [List.flatMap_nil, decodeIndices]; simp
  | cons s src ih =>
      rw [List.flatMap_cons, decodeIndices_index (members s (by simp)) fits,
        ih fun t member => members t (by simp [member])]
      simp

theorem decode_encode {src : List String} (fits : ∀ s ∈ src, (utf8 s).length < 2 ^ 32)
    (few : (buildDict src).length < 2 ^ 32) (out : List String) :
    decode (encode src []) out = .ok (out ++ src) := by
  let indices := src.flatMap fun s => leBytes 4 ((buildDict src).idxOf s)
  have shape : encode src [] =
      leBytes 4 (buildDict src).length ++ ((buildDict src).flatMap encodeEntry ++ indices) := by
    simp [encode, indices]
  have head : (encode src []).take 4 = leBytes 4 (buildDict src).length := by
    rw [shape]
    exact List.take_left' (leBytes_length _ _)
  have tail : (encode src []).drop 4 = (buildDict src).flatMap encodeEntry ++ indices := by
    rw [shape]
    exact List.drop_left' (leBytes_length _ _)
  have long : ¬ (encode src []).length < 4 := by
    rw [shape, List.length_append, leBytes_length]
    omega
  rw [decode, if_neg long, head, tail, leNat_leBytes_of_lt (w := 4) (by omega),
    decodeDict_entries fun s member => fits s (mem_buildDict.mp member)]
  exact decodeIndices_encode (fun s member => mem_buildDict.mpr member) few out

end StringDictionary

/-! ## The codec of a block -/

inductive StringCodec where
  | plain
  | dictionary
deriving DecidableEq, Repr

namespace StringCodec

def encode (codec : StringCodec) (src : List String) (out : Bytes) : Bytes :=
  match codec with
  | plain => StringPlain.encode src out
  | dictionary => StringDictionary.encode src out

def decode (codec : StringCodec) (src : Bytes) (out : List String) :
    Outcome EncodingError (List String) :=
  match codec with
  | plain => StringPlain.decode src out
  | dictionary => StringDictionary.decode src out

def tag : StringCodec → UInt8
  | plain => 0
  | dictionary => 1

def fromTag (tag : UInt8) : Outcome EncodingError StringCodec :=
  if tag = 0 then .ok plain
  else if tag = 1 then .ok dictionary
  else .err .badHeader

theorem fromTag_tag (codec : StringCodec) : fromTag codec.tag = .ok codec := by
  cases codec <;> rfl

/-- Every length, index and count the codec writes takes at most 32 bits. -/
def Fits (codec : StringCodec) (src : List String) : Prop :=
  (∀ s ∈ src, (utf8 s).length < 2 ^ 32) ∧
    (codec = dictionary → (StringDictionary.buildDict src).length < 2 ^ 32)

/-- **Decoding what a codec encoded appends the strings it was given.** -/
theorem decode_encode {codec : StringCodec} {src : List String} (fits : codec.Fits src)
    (out : List String) : codec.decode (codec.encode src []) out = .ok (out ++ src) := by
  cases codec with
  | plain => simpa [encode, decode, StringPlain.encode] using StringPlain.decode_encode fits.1 out
  | dictionary => exact StringDictionary.decode_encode fits.1 (fits.2 rfl) out

theorem length_le_flatMap {s : String} {src : List String} (member : s ∈ src) :
    (utf8 s).length ≤ (src.flatMap encodeEntry).length := by
  obtain ⟨before, after, rfl⟩ := List.append_of_mem member
  simp [encodeEntry]
  omega

theorem count_le_flatMap (src : List String) : src.length ≤ (src.flatMap encodeEntry).length := by
  induction src with
  | nil => simp
  | cons s src ih =>
      rw [List.flatMap_cons, List.length_append, List.length_cons, encodeEntry,
        List.length_append, leBytes_length]
      omega

/-- A block shorter than `2 ^ 32` bytes has only lengths and counts that fit. -/
theorem fits_of_length {codec : StringCodec} {src : List String}
    (short : (codec.encode src []).length < 2 ^ 32) : codec.Fits src := by
  cases codec with
  | plain =>
      refine ⟨fun s member => ?_, nofun⟩
      have := length_le_flatMap member
      simp only [encode, StringPlain.encode, List.nil_append] at short
      omega
  | dictionary =>
      simp only [encode, StringDictionary.encode, List.nil_append, List.length_append] at short
      refine ⟨fun s member => ?_, fun _ => ?_⟩
      · have := length_le_flatMap (StringDictionary.mem_buildDict.mpr member)
        omega
      · have := count_le_flatMap (StringDictionary.buildDict src)
        omega

end StringCodec

end TinyOlap.Encoding
