import Mathlib.Data.List.Basic
import Mathlib.Data.List.Dedup
import Mathlib.Tactic.Ring

/-!
# Granules inside blocks

A list of values is cut twice: into blocks, which are stored one after the other,
and into granules of `g` values, which are what a reader asks for. A mark records
where a granule begins: the offset of its block in storage, and how many values of
that block come before it. Marks do not record where a granule ends; a reader
infers the end from the next mark when that mark is in the same block, and takes
the rest of the block otherwise.

The blocks are aligned: none is empty and all but the last hold a multiple of `g`
values. Then there is one mark for each granule (`marksFrom_length`), and the range
a reader infers from the mark of granule `i` is exactly granule `i` of the whole
list (`slice_of_mark`), whatever the sizes of the stored blocks are.
-/

set_option autoImplicit false

namespace TinyOlap.Library.BlockLayout

variable {α : Type}

/-- The `i`-th granule of `g` values. -/
def granule (g : Nat) (values : List α) (i : Nat) : List α := (values.drop (g * i)).take g

/-- How many granules of `g` values cover `n` values. -/
def granuleCount (g n : Nat) : Nat := (n + g - 1) / g

/-- No block is empty, and every block but the last holds whole granules. -/
def Aligned (g : Nat) : List (List α) → Prop
  | [] => True
  | b :: bs => b ≠ [] ∧ (bs ≠ [] → g ∣ b.length) ∧ Aligned g bs

/-- The starts of the granules of one block. -/
def starts (g : Nat) (block : List α) : List Nat :=
  (List.range (granuleCount g block.length)).map (g * ·)

/-- The marks of consecutive blocks, the first of which is stored at `off`. -/
def marksFrom (size : List α → Nat) (g : Nat) : Nat → List (List α) → List (Nat × Nat)
  | _, [] => []
  | off, b :: bs => (starts g b).map (fun s => (off, s)) ++ marksFrom size g (off + size b) bs

/-- Block `b` is stored at offset `o`. -/
def BlockAt (size : List α → Nat) : Nat → List (List α) → Nat → List α → Prop
  | _, [], _, _ => False
  | off, b :: bs, o, c => (o = off ∧ c = b) ∨ BlockAt size (off + size b) bs o c

/-- Where consecutive pieces begin, the first of them at `off`. -/
def offsetsFrom {β : Type} (size : β → Nat) : Nat → List β → List Nat
  | _, [] => []
  | off, b :: bs => off :: offsetsFrom size (off + size b) bs

/-- The end a reader infers for a granule of a block at `o` with `len` values. -/
def sliceEnd (marks : List (Nat × Nat)) (i o len : Nat) : Nat :=
  match marks[i + 1]? with
  | some next => if next.1 = o then next.2 else len
  | none => len

theorem ne_nil_of_aligned {g : Nat} {bs : List (List α)} (aligned : Aligned g bs) :
    ∀ b ∈ bs, b ≠ [] := by
  induction bs with
  | nil => simp
  | cons b bs ih =>
      obtain ⟨nonempty, _, rest⟩ := aligned
      exact List.forall_mem_cons.mpr ⟨nonempty, ih rest⟩

/-! ## Counting granules -/

section Counting

variable {g : Nat}

theorem granuleCount_zero (pos : 0 < g) : granuleCount g 0 = 0 :=
  Nat.div_eq_of_lt (by omega)

theorem granuleCount_add_of_dvd (pos : 0 < g) {n : Nat} (whole : g ∣ n) (m : Nat) :
    granuleCount g (n + m) = n / g + granuleCount g m := by
  obtain ⟨k, rfl⟩ := whole
  have shift : g * k + m + g - 1 = m + g - 1 + g * k := by omega
  rw [granuleCount, shift, Nat.add_mul_div_left _ _ pos, Nat.mul_div_cancel_left _ pos,
    granuleCount, Nat.add_comm]

theorem granuleCount_of_dvd (pos : 0 < g) {n : Nat} (whole : g ∣ n) :
    granuleCount g n = n / g := by
  simpa [granuleCount_zero pos] using granuleCount_add_of_dvd pos whole 0

/-- A granule index is in range exactly when the granule has a first value. -/
theorem lt_granuleCount (pos : 0 < g) {i n : Nat} : i < granuleCount g n ↔ g * i < n := by
  rw [granuleCount, ← Nat.succ_le_iff, Nat.le_div_iff_mul_le pos, Nat.succ_mul, Nat.mul_comm]
  omega

/-- The granules of a list, one after the other, are the list. -/
theorem flatMap_granules (pos : 0 < g) {α : Type*} (l : List α) :
    ((List.range (granuleCount g l.length)).flatMap fun i => (l.drop (g * i)).take g) = l := by
  have enough : ∀ (count : Nat) (l : List α), l.length ≤ g * count →
      ((List.range count).flatMap fun i => (l.drop (g * i)).take g) = l := by
    intro count
    induction count with
    | zero =>
        intro l short
        rw [List.length_eq_zero_iff.mp (Nat.le_zero.mp short)]
        rfl
    | succ count ih =>
        intro l short
        have rest := ih (l.drop g) (by
          rw [List.length_drop]
          rw [Nat.mul_succ] at short
          omega)
        rw [List.range_succ_eq_map, List.flatMap_cons, List.flatMap_map]
        simp only [List.drop_drop] at rest
        simp only [Nat.mul_zero, List.drop_zero, Nat.mul_succ, Nat.add_comm]
        rw [rest, List.take_append_drop]
  refine enough _ l ?_
  by_contra less
  have inside := (lt_granuleCount pos).mpr (not_le.mp less)
  exact Nat.lt_irrefl _ inside

end Counting

/-! ## Marks -/

section Marks

variable {size : List α → Nat} {g : Nat}

theorem marksFrom_offset_ge {off : Nat} {bs : List (List α)} {mark : Nat × Nat}
    (member : mark ∈ marksFrom size g off bs) : off ≤ mark.1 := by
  induction bs generalizing off with
  | nil => simp [marksFrom] at member
  | cons b bs ih =>
      rw [marksFrom, List.mem_append] at member
      rcases member with here | there
      · obtain ⟨s, _, rfl⟩ := List.mem_map.mp here
        exact Nat.le_refl _
      · exact (Nat.le_add_right _ _).trans (ih there)

theorem BlockAt.offset_ge {off o : Nat} {bs : List (List α)} {b : List α}
    (stored : BlockAt size off bs o b) : off ≤ o := by
  induction bs generalizing off with
  | nil => exact stored.elim
  | cons c bs ih =>
      rcases stored with ⟨rfl, _⟩ | there
      · exact Nat.le_refl _
      · exact (Nat.le_add_right _ _).trans (ih there)

theorem BlockAt.mem {off o : Nat} {bs : List (List α)} {b : List α}
    (stored : BlockAt size off bs o b) : b ∈ bs := by
  induction bs generalizing off with
  | nil => exact stored.elim
  | cons c bs ih =>
      rcases stored with ⟨_, rfl⟩ | there
      · simp
      · exact List.mem_cons_of_mem _ (ih there)

/-- One offset holds one block, since every stored block takes room. -/
theorem BlockAt.unique {off o : Nat} {bs : List (List α)} {b c : List α}
    (room : ∀ b ∈ bs, 0 < size b) (first : BlockAt size off bs o b)
    (second : BlockAt size off bs o c) : b = c := by
  induction bs generalizing off with
  | nil => exact first.elim
  | cons d bs ih =>
      have positive := room d (by simp)
      rcases first with ⟨rfl, rfl⟩ | first <;> rcases second with ⟨same, rfl⟩ | second
      · rfl
      · have := second.offset_ge; omega
      · have := first.offset_ge; omega
      · exact ih (fun e he => room e (by simp [he])) first second

/-- A stored block ends before the end of the storage. -/
theorem BlockAt.offset_add_le {off o : Nat} {bs : List (List α)} {b : List α}
    (stored : BlockAt size off bs o b) : o + size b ≤ off + (bs.map size).sum := by
  induction bs generalizing off with
  | nil => exact stored.elim
  | cons c bs ih =>
      rw [List.map_cons, List.sum_cons]
      rcases stored with ⟨rfl, rfl⟩ | there
      · omega
      · have := ih there
        omega

/-- A mark names a stored block and a position inside it. -/
theorem blockAt_of_mem_marksFrom (pos : 0 < g) {off : Nat} {bs : List (List α)}
    {mark : Nat × Nat} (member : mark ∈ marksFrom size g off bs) :
    ∃ b, BlockAt size off bs mark.1 b ∧ mark.2 < b.length := by
  induction bs generalizing off with
  | nil => simp [marksFrom] at member
  | cons b bs ih =>
      rw [marksFrom, List.mem_append] at member
      rcases member with here | there
      · obtain ⟨s, started, rfl⟩ := List.mem_map.mp here
        obtain ⟨i, count, rfl⟩ := List.mem_map.mp started
        exact ⟨b, .inl ⟨rfl, rfl⟩, (lt_granuleCount pos).mp (List.mem_range.mp count)⟩
      · obtain ⟨c, stored, inside⟩ := ih there
        exact ⟨c, .inr stored, inside⟩

/-- A stored block is found by skipping its offset in the concatenation of the
stored forms. -/
theorem BlockAt.drop_flatMap {β : Type} {stored : List α → List β} {off o : Nat}
    {bs : List (List α)} {b : List α}
    (found : BlockAt (fun c => (stored c).length) off bs o b) :
    ∃ rest, (bs.flatMap stored).drop (o - off) = stored b ++ rest := by
  induction bs generalizing off with
  | nil => exact found.elim
  | cons c bs ih =>
      rcases found with ⟨rfl, rfl⟩ | there
      · exact ⟨bs.flatMap stored, by simp⟩
      · obtain ⟨rest, equal⟩ := ih there
        have later : off + (stored c).length ≤ o := there.offset_ge
        have skip : o - off = (stored c).length + (o - (off + (stored c).length)) := by omega
        refine ⟨rest, ?_⟩
        rw [List.flatMap_cons, skip, ← List.drop_drop, List.drop_left, equal]

@[simp] theorem starts_length (block : List α) :
    (starts g block).length = granuleCount g block.length := by
  simp [starts]

theorem starts_getElem? (pos : 0 < g) {block : List α} {i : Nat} (inside : g * i < block.length) :
    (starts g block)[i]? = some (g * i) := by
  simp [starts, List.getElem?_range ((lt_granuleCount pos).mpr inside)]

/-- **There is one mark for each granule of the whole list.** -/
theorem marksFrom_length (pos : 0 < g) {bs : List (List α)} (aligned : Aligned g bs) (off : Nat) :
    (marksFrom size g off bs).length = granuleCount g bs.flatten.length := by
  induction bs generalizing off with
  | nil => simp [marksFrom, granuleCount_zero pos]
  | cons b bs ih =>
      obtain ⟨_, whole, rest⟩ := aligned
      rw [marksFrom, List.length_append, List.length_map, starts_length, ih rest,
        List.flatten_cons, List.length_append]
      cases bs with
      | nil => simp [granuleCount_zero pos]
      | cons c bs =>
          have whole := whole (by simp)
          rw [granuleCount_add_of_dvd pos whole, granuleCount_of_dvd pos whole]

/-- Inside the first block the marks step by whole granules. -/
theorem marksFrom_cons_getElem?_of_inside (pos : 0 < g) {off i : Nat} {b : List α}
    (bs : List (List α)) (inside : g * i < b.length) :
    (marksFrom size g off (b :: bs))[i]? = some (off, g * i) := by
  have inHead : i < ((starts g b).map fun s => (off, s)).length := by
    simpa using (lt_granuleCount pos).mpr inside
  rw [marksFrom, List.getElem?_append_left inHead, List.getElem?_map,
    starts_getElem? pos inside]
  rfl

/-- Behind the marks of the first block stand those of the later blocks. -/
theorem marksFrom_cons_getElem?_of_beyond {off i : Nat} {b : List α} (bs : List (List α))
    (beyond : granuleCount g b.length ≤ i) :
    (marksFrom size g off (b :: bs))[i]? =
      (marksFrom size g (off + size b) bs)[i - granuleCount g b.length]? := by
  rw [marksFrom, List.getElem?_append_right (by simpa using beyond)]
  simp

/-- Every granule but the last of the first block ends where the next one starts. -/
theorem sliceEnd_cons_inner (pos : 0 < g) {off i : Nat} {b : List α} (bs : List (List α))
    (inside : g * (i + 1) < b.length) :
    sliceEnd (marksFrom size g off (b :: bs)) i off b.length = g * (i + 1) := by
  simp [sliceEnd, marksFrom_cons_getElem?_of_inside pos bs inside]

/-- The last granule of the first block ends with the block: the next mark, if there
is one, names another offset. -/
theorem sliceEnd_cons_last (pos : 0 < g) {off i : Nat} {b : List α} (bs : List (List α))
    (room : 0 < size b) (last : ¬ g * (i + 1) < b.length) :
    sliceEnd (marksFrom size g off (b :: bs)) i off b.length = b.length := by
  have beyond : granuleCount g b.length ≤ i + 1 :=
    Nat.le_of_not_lt fun more => last ((lt_granuleCount pos).mp more)
  rw [sliceEnd, marksFrom_cons_getElem?_of_beyond bs beyond]
  cases found : (marksFrom size g (off + size b) bs)[i + 1 - granuleCount g b.length]? with
  | none => rfl
  | some next =>
      have later := marksFrom_offset_ge (List.mem_of_getElem? found)
      simp only [show next.1 ≠ off by omega, if_false]

theorem granule_append_of_inner {i : Nat} {b : List α} (rest : List α)
    (inside : g * (i + 1) ≤ b.length) : granule g (b ++ rest) i = granule g b i := by
  rw [Nat.mul_succ] at inside
  rw [granule, granule, List.drop_append_of_le_length (by omega),
    List.take_append_of_le_length (by rw [List.length_drop]; omega)]

/-- The last granule of a block is what the block has left. -/
theorem granule_of_last {i : Nat} {b : List α} (last : ¬ g * (i + 1) < b.length) :
    granule g b i = b.drop (g * i) := by
  rw [Nat.mul_succ] at last
  rw [granule, List.take_of_length_le]
  rw [List.length_drop]
  omega

/-- The granules behind a block of whole granules are those of what follows it. -/
theorem granule_append_of_beyond (pos : 0 < g) {i : Nat} {b : List α} (rest : List α)
    (whole : g ∣ b.length) (beyond : granuleCount g b.length ≤ i) :
    granule g (b ++ rest) i = granule g rest (i - granuleCount g b.length) := by
  obtain ⟨k, count⟩ := whole
  have skip : g * i = b.length + g * (i - granuleCount g b.length) := by
    rw [granuleCount_of_dvd pos ⟨k, count⟩, count, Nat.mul_div_cancel_left _ pos] at beyond ⊢
    rw [← Nat.mul_add, Nat.add_sub_cancel' beyond]
  rw [granule, granule, skip, ← List.drop_drop, List.drop_left]

/-- **The range inferred from the mark of a granule is that granule.** The mark at
`i` names a stored block and a start; from that start to the inferred end the block
holds granule `i` of the concatenation of all blocks. -/
theorem slice_of_mark (pos : 0 < g) {bs : List (List α)} (aligned : Aligned g bs)
    (room : ∀ b ∈ bs, 0 < size b) {off i : Nat} (inRange : i < (marksFrom size g off bs).length) :
    ∃ o s b, (marksFrom size g off bs)[i]? = some (o, s) ∧ BlockAt size off bs o b ∧
      s ≤ sliceEnd (marksFrom size g off bs) i o b.length ∧
      sliceEnd (marksFrom size g off bs) i o b.length ≤ b.length ∧
      (b.drop s).take (sliceEnd (marksFrom size g off bs) i o b.length - s) =
        granule g bs.flatten i := by
  induction bs generalizing off i with
  | nil => simp [marksFrom] at inRange
  | cons b bs ih =>
      obtain ⟨_, whole, alignedRest⟩ := aligned
      by_cases inHead : i < granuleCount g b.length
      · have inside : g * i < b.length := (lt_granuleCount pos).mp inHead
        refine ⟨off, g * i, b, marksFrom_cons_getElem?_of_inside pos bs inside,
          .inl ⟨rfl, rfl⟩, ?_⟩
        rw [List.flatten_cons]
        by_cases inner : g * (i + 1) < b.length
        · rw [sliceEnd_cons_inner pos bs inner, granule_append_of_inner _ inner.le]
          have width : g * (i + 1) - g * i = g := by rw [Nat.mul_succ]; omega
          exact ⟨Nat.mul_le_mul_left g (Nat.le_succ i), inner.le, by rw [width, granule]⟩
        · rw [sliceEnd_cons_last pos bs (room b (by simp)) inner]
          refine ⟨inside.le, Nat.le_refl _, ?_⟩
          rw [List.take_of_length_le (by simp), ← granule_of_last inner]
          cases bs with
          | nil => rw [List.flatten_nil, List.append_nil]
          | cons c bs =>
              -- an aligned block that is not the last one ends on a granule boundary
              obtain ⟨k, count⟩ := whole (by simp)
              have ends : g * (i + 1) ≤ b.length := by
                rw [count] at inside ⊢
                exact Nat.mul_le_mul_left g (Nat.lt_of_mul_lt_mul_left inside)
              rw [granule_append_of_inner _ ends]
      · have beyond : granuleCount g b.length ≤ i := Nat.le_of_not_lt inHead
        have rest : i - granuleCount g b.length < (marksFrom size g (off + size b) bs).length := by
          rw [marksFrom, List.length_append, List.length_map, starts_length] at inRange
          omega
        have more : bs ≠ [] := by
          rintro rfl
          simp [marksFrom] at rest
        obtain ⟨o, s, c, found, stored, lower, upper, slice⟩ :=
          ih alignedRest (fun d hd => room d (by simp [hd])) rest
        have sameEnd : sliceEnd (marksFrom size g off (b :: bs)) i o c.length =
            sliceEnd (marksFrom size g (off + size b) bs) (i - granuleCount g b.length) o
              c.length := by
          rw [sliceEnd, sliceEnd, marksFrom_cons_getElem?_of_beyond bs (by omega),
            show i + 1 - granuleCount g b.length = i - granuleCount g b.length + 1 by omega]
        refine ⟨o, s, c, by rw [marksFrom_cons_getElem?_of_beyond bs beyond, found],
          .inr stored, ?_⟩
        rw [sameEnd, List.flatten_cons, granule_append_of_beyond pos _ (whole more) beyond]
        exact ⟨lower, upper, slice⟩

end Marks

/-! ## Offsets -/

section Offsets

variable {β : Type} {size : β → Nat} {off : Nat}

theorem offsetsFrom_map {γ : Type} (f : γ → β) (off : Nat) (l : List γ) :
    offsetsFrom size off (l.map f) = offsetsFrom (fun c => size (f c)) off l := by
  induction l generalizing off with
  | nil => rfl
  | cons c l ih => rw [List.map_cons, offsetsFrom, offsetsFrom, ih]

theorem offsetsFrom_ge {l : List β} {o : Nat} (member : o ∈ offsetsFrom size off l) : off ≤ o := by
  induction l generalizing off with
  | nil => cases member
  | cons b l ih =>
      rcases List.mem_cons.mp member with rfl | later
      · exact Nat.le_refl _
      · exact (Nat.le_add_right _ _).trans (ih later)

/-- Pieces that take room begin one behind the other. -/
theorem offsetsFrom_increasing {l : List β} (room : ∀ b ∈ l, 0 < size b) :
    (offsetsFrom size off l).Pairwise (· < ·) := by
  induction l generalizing off with
  | nil => exact .nil
  | cons b l ih =>
      have positive := room b List.mem_cons_self
      refine .cons (fun o later => ?_) (ih fun c member => room c (List.mem_cons_of_mem _ member))
      have beyond := offsetsFrom_ge later
      omega

variable {size : List α → Nat} {g : Nat} {bs : List (List α)}

/-- The marks of a block all name its offset. -/
theorem map_fst_marksFrom_cons (off : Nat) (b : List α) (bs : List (List α)) :
    (marksFrom size g off (b :: bs)).map Prod.fst =
      List.replicate (granuleCount g b.length) off ++
        (marksFrom size g (off + size b) bs).map Prod.fst := by
  rw [marksFrom, List.map_append, List.map_map, ← starts_length (g := g) b]
  congr 1
  exact List.map_const' ..

/-- **The offsets that marks name are those of the blocks**, each of which has a mark. -/
theorem dedup_map_fst_marksFrom (pos : 0 < g) (nonempty : ∀ b ∈ bs, b ≠ [])
    (room : ∀ b ∈ bs, 0 < size b) (off : Nat) :
    ((marksFrom size g off bs).map Prod.fst).dedup = offsetsFrom size off bs := by
  induction bs generalizing off with
  | nil => rfl
  | cons b bs ih =>
      have some : granuleCount g b.length ≠ 0 := by
        have first : 0 < granuleCount g b.length :=
          (lt_granuleCount pos).mpr (List.length_pos_of_ne_nil (nonempty b List.mem_cons_self))
        exact first.ne'
      have apart : List.Disjoint (List.replicate (granuleCount g b.length) off)
          (offsetsFrom size (off + size b) bs) := by
        intro o here later
        have positive := room b List.mem_cons_self
        have beyond := offsetsFrom_ge later
        rw [List.eq_of_mem_replicate here] at beyond
        omega
      rw [map_fst_marksFrom_cons, List.dedup_append,
        ih (fun c member => nonempty c (List.mem_cons_of_mem _ member))
          (fun c member => room c (List.mem_cons_of_mem _ member)),
        apart.union_eq, List.replicate_dedup some, offsetsFrom, List.singleton_append]

/-- The marks are in the order of the blocks. -/
theorem map_fst_marksFrom_sorted (off : Nat) (bs : List (List α)) :
    ((marksFrom size g off bs).map Prod.fst).Pairwise (· ≤ ·) := by
  induction bs generalizing off with
  | nil => exact .nil
  | cons b bs ih =>
      rw [map_fst_marksFrom_cons, List.pairwise_append]
      refine ⟨List.pairwise_replicate.mpr (.inr (Nat.le_refl _)), ih _, fun o here o' later => ?_⟩
      obtain ⟨mark, member, rfl⟩ := List.mem_map.mp later
      rw [List.eq_of_mem_replicate here]
      exact (Nat.le_add_right _ _).trans (marksFrom_offset_ge member)

/-- **The marks with the offset of a block** are those of its granules. -/
theorem filter_marksFrom (room : ∀ b ∈ bs, 0 < size b) {o : Nat} {b : List α}
    (stored : BlockAt size off bs o b) :
    (marksFrom size g off bs).filter (fun mark => mark.1 = o) =
      (starts g b).map fun s => (o, s) := by
  induction bs generalizing off with
  | nil => exact stored.elim
  | cons c bs ih =>
      have positive := room c List.mem_cons_self
      rw [marksFrom, List.filter_append]
      rcases stored with ⟨rfl, rfl⟩ | later
      · have rest : (marksFrom size g (o + size b) bs).filter (fun mark => mark.1 = o) = [] := by
          refine List.filter_eq_nil_iff.mpr fun mark member => ?_
          have beyond := marksFrom_offset_ge member
          simp only [decide_eq_true_eq]
          omega
        rw [rest, List.append_nil, List.filter_eq_self]
        intro mark member
        obtain ⟨s, _, rfl⟩ := List.mem_map.mp member
        simp
      · have none : ((starts g c).map fun s => (off, s)).filter (fun mark => mark.1 = o) = [] := by
          refine List.filter_eq_nil_iff.mpr fun mark member => ?_
          obtain ⟨s, _, rfl⟩ := List.mem_map.mp member
          have beyond := later.offset_ge
          simp only [decide_eq_true_eq]
          omega
        rw [none, List.nil_append,
          ih (fun d member => room d (List.mem_cons_of_mem _ member)) later]

/-- Each block is stored at its offset. -/
theorem forall₂_blockAt (off : Nat) (bs : List (List α)) :
    List.Forall₂ (BlockAt size off bs) (offsetsFrom size off bs) bs := by
  induction bs generalizing off with
  | nil => exact .nil
  | cons b bs ih => exact .cons (.inl ⟨rfl, rfl⟩) ((ih _).imp fun _ _ later => .inr later)

end Offsets

/-! ## Cutting a list into blocks -/

section Cutting

variable {size : α → Nat} {g limit : Nat}

/-- The sizes of the values of a block, together. -/
def totalSize (size : α → Nat) (block : List α) : Nat := (block.map size).sum

theorem le_totalSize {m : Nat} (atLeast : ∀ v, m ≤ size v) (block : List α) :
    m * block.length ≤ totalSize size block := by
  induction block with
  | nil => simp
  | cons v block ih =>
      have here := atLeast v
      rw [List.length_cons, Nat.mul_succ, totalSize, List.map_cons, List.sum_cons]
      rw [totalSize] at ih
      omega

/-- A block is complete when it holds whole granules and has reached the limit. -/
def Complete (g limit : Nat) (size : α → Nat) (block : List α) : Prop :=
  g ∣ block.length ∧ limit ≤ totalSize size block

instance (block : List α) : Decidable (Complete g limit size block) :=
  inferInstanceAs (Decidable (_ ∧ _))

/-- Append the values to the block one by one and start a new block behind each
complete one; what is left at the end is the last block. -/
def cut (g limit : Nat) (size : α → Nat) : List α → List α → List (List α)
  | block, [] => if block = [] then [] else [block]
  | block, v :: values =>
      if Complete g limit size (block ++ [v]) then (block ++ [v]) :: cut g limit size [] values
      else cut g limit size (block ++ [v]) values

theorem cut_flatten (block values : List α) :
    (cut g limit size block values).flatten = block ++ values := by
  induction values generalizing block with
  | nil =>
      rw [cut, List.append_nil]
      split
      · rename_i empty
        rw [empty, List.flatten_nil]
      · simp
  | cons v values ih =>
      rw [cut]
      split
      · rw [List.flatten_cons, ih]
        simp
      · rw [ih]
        simp

theorem cut_aligned (block values : List α) : Aligned g (cut g limit size block values) := by
  induction values generalizing block with
  | nil =>
      rw [cut]
      split
      · trivial
      · rename_i nonempty
        exact ⟨nonempty, fun more => absurd rfl more, trivial⟩
  | cons v values ih =>
      rw [cut]
      split
      · rename_i complete
        exact ⟨by simp, fun _ => complete.1, ih []⟩
      · exact ih _

/-- A block exceeds the limit by less than its last granule: all granules before that
are below the limit, even when every value has only the size `m`. -/
theorem cut_length_lt {m : Nat} (pos : 0 < g) (room : 0 < limit) (atLeast : ∀ v, m ≤ size v)
    (values : List α) : ∀ b ∈ cut g limit size [] values, m * b.length < limit + m * g := by
  suffices general : ∀ block : List α, m * (g * (block.length / g)) < limit →
      ∀ b ∈ cut g limit size block values, m * b.length < limit + m * g from
    general [] (by simpa using room)
  have short : ∀ n, m * (g * (n / g)) < limit → m * n < limit + m * g := by
    intro n below
    have split : n = g * (n / g) + n % g := (Nat.div_add_mod n g).symm
    have tail : m * (n % g) ≤ m * g := Nat.mul_le_mul_left m (Nat.mod_lt n pos).le
    calc m * n = m * (g * (n / g)) + m * (n % g) := by rw [← Nat.mul_add, ← split]
      _ < limit + m * g := by omega
  induction values with
  | nil =>
      intro block below b member
      rw [cut] at member
      split at member
      · simp at member
      · rw [List.mem_singleton.mp member]
        exact short _ below
  | cons v values ih =>
      intro block below b member
      have sized : m * (block.length + 1) ≤ totalSize size (block ++ [v]) := by
        simpa using le_totalSize atLeast (block ++ [v])
      rw [cut] at member
      split at member
      · rename_i complete
        rcases List.mem_cons.mp member with rfl | later
        · -- the granules before the last one were not enough
          obtain ⟨k, count⟩ := complete.1
          rw [List.length_append, List.length_singleton] at count ⊢
          have before : block.length / g = k - 1 := by
            obtain _ | k := k
            · omega
            · rw [Nat.mul_succ] at count
              rw [Nat.add_sub_cancel]
              exact Nat.div_eq_of_lt_le (by rw [Nat.mul_comm]; omega)
                (by rw [Nat.succ_mul, Nat.mul_comm]; omega)
          obtain _ | k := k
          · omega
          · rw [before, Nat.add_sub_cancel] at below
            rw [count, Nat.mul_succ, Nat.mul_add]
            omega
        · exact ih [] (by simpa using room) b later
      · rename_i incomplete
        refine ih (block ++ [v]) ?_ b member
        rw [List.length_append, List.length_singleton]
        by_cases whole : g ∣ block.length + 1
        · rw [Nat.mul_div_cancel' whole]
          have : ¬ limit ≤ totalSize size (block ++ [v]) := fun reached =>
            incomplete ⟨by simpa using whole, reached⟩
          omega
        · rwa [Nat.succ_div_of_not_dvd whole]

/-- Where all values have one size, and the limit is the size of `n` values that are whole
granules, a block is complete with `n` values. -/
theorem cut_length_eq {m n : Nat} (pos : 0 < m) (uniform : ∀ v, size v = m) (whole : g ∣ n)
    (exact : limit = m * n) (values : List α) :
    ∀ block : List α, block.length < n →
      (∀ b ∈ (cut g limit size block values).dropLast, b.length = n) ∧
        ∀ b ∈ cut g limit size block values, b.length ≤ n := by
  have sized : ∀ block : List α, totalSize size block = m * block.length := by
    intro block
    rw [totalSize, List.map_congr_left fun v _ => uniform v, List.map_const',
      List.sum_replicate_nat, Nat.mul_comm]
  induction values with
  | nil =>
      intro block short
      rw [cut]
      split
      · simp
      · simpa using Nat.le_of_lt short
  | cons v values ih =>
      intro block short
      have next : (block ++ [v]).length = block.length + 1 := by simp
      rw [cut]
      split
      · rename_i complete
        have reached := complete.2
        rw [sized, exact, Nat.mul_le_mul_left_iff pos] at reached
        have count : (block ++ [v]).length = n := by omega
        obtain ⟨full, last⟩ := ih [] (by simpa using Nat.zero_lt_of_lt short)
        refine ⟨?_, List.forall_mem_cons.mpr ⟨count.le, last⟩⟩
        by_cases more : cut g limit size [] values = []
        · rw [more]
          simp
        · rw [List.dropLast_cons_of_ne_nil more]
          exact List.forall_mem_cons.mpr ⟨count, full⟩
      · rename_i incomplete
        refine ih (block ++ [v]) (lt_of_le_of_ne (by omega) fun count => incomplete ?_)
        refine ⟨count ▸ whole, ?_⟩
        rw [sized, exact, count]

end Cutting

/-! ## Building the marks of a block value by value -/

/-- The first value of a granule opens a new start. -/
theorem starts_concat_of_dvd {g : Nat} (pos : 0 < g) {block : List α} (whole : g ∣ block.length)
    (v : α) : starts g (block ++ [v]) = starts g block ++ [block.length] := by
  obtain ⟨k, count⟩ := whole
  have one : granuleCount g 1 = 1 := by
    rw [granuleCount, Nat.add_comm, Nat.add_sub_cancel, Nat.div_self pos]
  rw [starts, List.length_append, List.length_singleton,
    granuleCount_add_of_dvd pos ⟨k, count⟩, one, List.range_succ, List.map_append, starts,
    granuleCount_of_dvd pos ⟨k, count⟩, count, Nat.mul_div_cancel_left _ pos]
  rfl

/-- A later value of a granule opens none. -/
theorem starts_concat_of_not_dvd {g : Nat} (pos : 0 < g) {block : List α}
    (inside : ¬ g ∣ block.length) (v : α) : starts g (block ++ [v]) = starts g block := by
  have same : granuleCount g (block.length + 1) = granuleCount g block.length := by
    refine Nat.le_antisymm (Nat.le_of_not_lt fun more => inside ?_)
      (Nat.div_le_div_right (by omega))
    -- the one value more could only open a granule at a boundary
    have upper := (lt_granuleCount pos).mp more
    have lower : ¬ g * granuleCount g block.length < block.length := fun h =>
      Nat.lt_irrefl _ ((lt_granuleCount pos).mpr h)
    exact ⟨granuleCount g block.length, by omega⟩
  rw [starts, List.length_append, List.length_singleton, same, starts]

end TinyOlap.Library.BlockLayout
