import Mathlib.Data.List.Basic
import Mathlib.Tactic.Ring

/-!
# Little-endian integers and fixed-width chunks

`leBytes w n` writes the low `w` bytes of `n`, least significant first, and
`leNat` reads such a byte string back. The two are inverse on the nose in both
directions (`leNat_leBytes_of_lt`, `leBytes_leNat`).

`chunksExact w l` cuts a list into consecutive pieces of `w` elements and drops
an incomplete piece at the end. Cutting the concatenation of pieces of width
`w` gives the pieces back (`chunksExact_flatMap`).
-/

set_option autoImplicit false

namespace TinyOlap.Library

abbrev Bytes := List UInt8

/-! ## Integers -/

/-- The low `w` bytes of `n`, least significant first. -/
def leBytes : Nat → Nat → Bytes
  | 0, _ => []
  | w + 1, n => UInt8.ofNat n :: leBytes w (n / 256)

/-- The number whose base-256 digits are the given bytes, least significant first. -/
def leNat : Bytes → Nat
  | [] => 0
  | b :: bs => b.toNat + 256 * leNat bs

@[simp] theorem leBytes_length (w n : Nat) : (leBytes w n).length = w := by
  induction w generalizing n with
  | zero => rfl
  | succ w ih => simp [leBytes, ih]

theorem leNat_lt (bs : Bytes) : leNat bs < 256 ^ bs.length := by
  induction bs with
  | nil => simp [leNat]
  | cons b bs ih =>
      have digit : b.toNat < 256 := b.toNat_lt
      rw [leNat, List.length_cons, Nat.pow_succ]
      omega

/-- Reading back what was written loses exactly the bytes that did not fit. -/
theorem leNat_leBytes (w n : Nat) : leNat (leBytes w n) = n % 256 ^ w := by
  induction w generalizing n with
  | zero => simp [leBytes, leNat, Nat.mod_one]
  | succ w ih =>
      have byte : (UInt8.ofNat n).toNat = n % 256 := by simp
      rw [leBytes, leNat, ih, byte, Nat.pow_succ, Nat.mul_comm (256 ^ w) 256, Nat.mod_mul]

theorem leNat_leBytes_of_lt {w n : Nat} (fits : n < 256 ^ w) : leNat (leBytes w n) = n := by
  rw [leNat_leBytes, Nat.mod_eq_of_lt fits]

/-- Writing back what was read gives the same bytes. -/
theorem leBytes_leNat (bs : Bytes) : leBytes bs.length (leNat bs) = bs := by
  induction bs with
  | nil => rfl
  | cons b bs ih =>
      have digit : b.toNat < 256 := b.toNat_lt
      have low : UInt8.ofNat (b.toNat + 256 * leNat bs) = b := by
        apply UInt8.toNat.inj
        rw [UInt8.toNat_ofNat']
        omega
      have high : (b.toNat + 256 * leNat bs) / 256 = leNat bs := by omega
      rw [List.length_cons, leNat, leBytes, low, high, ih]

/-! ## Chunks -/

variable {α β : Type}

/-- Consecutive pieces of `w` elements; a shorter rest is dropped. -/
def chunksExact (w : Nat) (l : List α) : List (List α) :=
  (List.range (l.length / w)).map fun i => (l.drop (w * i)).take w

@[simp] theorem chunksExact_nil (w : Nat) : chunksExact w ([] : List α) = [] := by
  simp [chunksExact]

/-- The first piece, and the pieces of what follows it. -/
theorem chunksExact_append {w : Nat} (pos : 0 < w) {piece : List α} (width : piece.length = w)
    (rest : List α) : chunksExact w (piece ++ rest) = piece :: chunksExact w rest := by
  have count : (piece ++ rest).length / w = rest.length / w + 1 := by
    rw [List.length_append, width, Nat.add_div_left _ pos]
  rw [chunksExact, count, List.range_succ_eq_map, List.map_cons, List.map_map]
  congr 1
  · simp [← width]
  · refine List.map_congr_left fun i _ => ?_
    have next : w * (i + 1) = piece.length + w * i := by rw [width]; ring
    simp only [Function.comp_apply, next, List.drop_append, Nat.add_sub_cancel_left,
      List.drop_eq_nil_of_le (Nat.le_add_right piece.length (w * i)), List.nil_append]

/-- **Cutting a concatenation of equal pieces gives the pieces back.** -/
theorem chunksExact_flatMap {w : Nat} (pos : 0 < w) {f : β → List α} {l : List β}
    (width : ∀ b ∈ l, (f b).length = w) : chunksExact w (l.flatMap f) = l.map f := by
  induction l with
  | nil => simp
  | cons b l ih =>
      rw [List.flatMap_cons, chunksExact_append pos (width b (by simp)),
        ih fun c hc => width c (by simp [hc]), List.map_cons]

/-- Bytes that fill whole pieces are the concatenation of their pieces. -/
theorem exists_pieces {w : Nat} {l : List α} (whole : w ∣ l.length) :
    ∃ pieces : List (List α), (∀ p ∈ pieces, p.length = w) ∧ l = pieces.flatten := by
  obtain ⟨k, length⟩ := whole
  induction k generalizing l with
  | zero => exact ⟨[], by simp, by simpa using length⟩
  | succ k ih =>
      rw [Nat.mul_succ] at length
      obtain ⟨pieces, widths, rest⟩ := ih (l := l.drop w) (by rw [List.length_drop]; omega)
      refine ⟨l.take w :: pieces, ?_, ?_⟩
      · intro p member
        rcases List.mem_cons.mp member with rfl | later
        · rw [List.length_take]; omega
        · exact widths p later
      · rw [List.flatten_cons, ← rest, List.take_append_drop]

theorem chunksExact_flatten {w : Nat} (pos : 0 < w) {pieces : List (List α)}
    (widths : ∀ p ∈ pieces, p.length = w) : chunksExact w pieces.flatten = pieces := by
  simpa [List.flatMap_id] using chunksExact_flatMap pos (f := id) widths

theorem length_flatMap_of_width {w : Nat} {f : β → List α} {l : List β}
    (width : ∀ b ∈ l, (f b).length = w) : (l.flatMap f).length = w * l.length := by
  induction l with
  | nil => simp
  | cons b l ih =>
      rw [List.flatMap_cons, List.length_append, width b (by simp),
        ih fun c hc => width c (by simp [hc]), List.length_cons]
      ring

/-- Pieces of equal width are skipped as elements are. -/
theorem drop_flatMap_of_width {w : Nat} {f : β → List α} {l : List β}
    (width : ∀ b ∈ l, (f b).length = w) (i : Nat) :
    (l.flatMap f).drop (w * i) = (l.drop i).flatMap f := by
  induction l generalizing i with
  | nil => simp
  | cons b l ih =>
      cases i with
      | zero => simp
      | succ i =>
          have skip : w * (i + 1) = (f b).length + w * i := by rw [width b (by simp)]; ring
          rw [List.flatMap_cons, skip, ← List.drop_drop, List.drop_left,
            ih fun c hc => width c (by simp [hc]), List.drop_succ_cons]

theorem take_flatMap_of_width {w : Nat} {f : β → List α} {l : List β}
    (width : ∀ b ∈ l, (f b).length = w) (i : Nat) :
    (l.flatMap f).take (w * i) = (l.take i).flatMap f := by
  induction l generalizing i with
  | nil => simp
  | cons b l ih =>
      cases i with
      | zero => simp
      | succ i =>
          have skip : w * (i + 1) = (f b).length + w * i := by rw [width b (by simp)]; ring
          rw [List.flatMap_cons, skip, List.take_length_add_append,
            ih fun c hc => width c (by simp [hc]), List.take_succ_cons, List.flatMap_cons]

end TinyOlap.Library
