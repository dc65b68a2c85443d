import TinyOlap.Execution.Aggregation.GroupIndex
import TinyOlap.Library.Summation

/-!
# What the slots hold

The slot of a group says what the values of its rows amount to: their number, their sum, the
least or the greatest of them. This is so after every batch of the first phase
(`Aggregate.update_holds`) and after every partial result of the second
(`Aggregate.merge_holds`), where the values of a row are those of a whole group of a
worker. An accumulator with one group takes all values at once, which makes no difference to
integers. Floats round, so the slot of a sum of them is one of their totals, in some order; and a
least float is only the least if no value is a NaN.
-/

set_option autoImplicit false

namespace TinyOlap.Execution

open Library Catalog Arrow

/-! ## Slots by key -/

section Slots

variable {α β : Type} {keys : List GroupKey}

/-- New keys get the default. -/
theorem grow_map {old : List GroupKey} (begins : old <+: keys) (distinct : keys.Nodup)
    {f : GroupKey → α} {default : α} (absent : ∀ k ∉ old, f k = default) :
    grow (old.map f) keys.length default = keys.map f := by
  obtain ⟨new, rfl⟩ := begins
  have news : new.map f = List.replicate new.length default := by
    refine List.eq_replicate_iff.mpr ⟨List.length_map _, fun b member => ?_⟩
    obtain ⟨k, inside, rfl⟩ := List.mem_map.mp member
    exact absent k fun before => (List.nodup_append.mp distinct).2.2 k before k inside rfl
  rw [grow, List.map_append, news, List.length_map, List.length_append, Nat.add_sub_cancel_left]

theorem grow_related {R : β → α → Prop} {old : List GroupKey} (begins : old <+: keys)
    (distinct : keys.Nodup) {g : GroupKey → β} {slots : List α} {default : α}
    (absent : ∀ k ∉ old, R (g k) default) (related : List.Forall₂ R (old.map g) slots) :
    List.Forall₂ R (keys.map g) (grow slots keys.length default) := by
  obtain ⟨new, rfl⟩ := begins
  have news : List.Forall₂ R (new.map g) (List.replicate new.length default) := by
    rw [← List.map_const', List.forall₂_map_left_iff, List.forall₂_map_right_iff,
      List.forall₂_same]
    exact fun k inside => absent k fun before =>
      (List.nodup_append.mp distinct).2.2 k before k inside rfl
  rw [grow, List.map_append, ← related.length_eq, List.length_map, List.length_append,
    Nat.add_sub_cancel_left]
  exact List.rel_append related news

/-- The slot at the position of a key is the slot of the key. -/
theorem modifyAt_map (distinct : keys.Nodup) {k : GroupKey} (known : k ∈ keys) (g : GroupKey → α)
    (f : α → α) :
    modifyAt (keys.map g) (keys.idxOf k) f =
      some (keys.map fun j => if j = k then f (g j) else g j) := by
  have inside : keys.idxOf k < (keys.map g).length := by
    rw [List.length_map]
    exact List.idxOf_lt_length_of_mem known
  have there : (keys.map g)[keys.idxOf k] = g k := by
    rw [List.getElem_map, List.getElem_idxOf]
  rw [modifyAt_eq_some inside, there]
  congr 1
  refine List.ext_getElem (by simp) fun i left right => ?_
  have here : i < keys.length := by simpa using left
  rw [List.getElem_set, List.getElem_map, List.getElem_map]
  by_cases same : keys.idxOf k = i
  · subst same
    simp
  · have other : keys[i] ≠ k := by
      rintro rfl
      exact same (distinct.idxOf_getElem i here)
    rw [if_neg same, if_neg other]

/-- **Scattered values arrive at the slots of their keys**, in order. -/
theorem scatter_map (distinct : keys.Nodup) (f : α → β → α) (g : GroupKey → α) {ks : List GroupKey}
    (known : ∀ k ∈ ks, k ∈ keys) (values : List β) :
    scatter f (keys.map g) (ks.map keys.idxOf) values =
      some (keys.map fun k => (entriesOf (ks.zip values) k).foldl f (g k)) := by
  have inside : ∀ entry ∈ ks.zip values, entry.1 ∈ keys :=
    fun entry member => known entry.1 (List.of_mem_zip member).1
  rw [scatter, List.zip_map_left, List.foldlM_map]
  revert inside
  generalize ks.zip values = entries
  intro inside
  induction entries generalizing g with
  | nil => rfl
  | cons entry rest ih =>
      rw [List.foldlM_cons]
      show (modifyAt (keys.map g) (keys.idxOf entry.1) (f · entry.2)).bind _ = _
      rw [modifyAt_map distinct (inside entry (by simp)), Option.bind_some,
        ih _ fun later member => inside later (by simp [member])]
      congr 1
      refine List.map_congr_left fun k _ => ?_
      rw [entriesOf_cons]
      by_cases here : k = entry.1
      · subst here
        simp
      · rw [if_neg here, if_neg (Ne.symm here)]

/-- With one group, all rows are in it. -/
theorem entriesOf_zip_single {ks : List GroupKey} {k : GroupKey} (all : ∀ j ∈ ks, j = k)
    {values : List β} (same : values.length = ks.length) :
    entriesOf (ks.zip values) k = values := by
  rw [entriesOf_of_all fun row member => all row.1 (List.of_mem_zip member).1,
    List.map_snd_zip (Nat.le_of_eq same)]

/-- The slot of an only group may be changed at once instead, if that comes to the same. -/
theorem modify_or_scatter_map (distinct : keys.Nodup) (f : α → β → α) (g : GroupKey → α)
    {ks : List GroupKey} (known : ∀ k ∈ ks, k ∈ keys) {values : List β}
    (same : values.length = ks.length) (whole : α → α)
    (agree : ∀ k, keys = [k] → whole (g k) = values.foldl f (g k)) :
    (if keys.length = 1 then modifyAt (keys.map g) 0 whole
      else scatter f (keys.map g) (ks.map keys.idxOf) values) =
      some (keys.map fun k => (entriesOf (ks.zip values) k).foldl f (g k)) := by
  split
  · rename_i single
    obtain ⟨k, rfl⟩ := List.length_eq_one_iff.mp single
    have all : ∀ j ∈ ks, j = k := fun j member => List.mem_singleton.mp (known j member)
    simp only [List.map_cons, List.map_nil, entriesOf_zip_single all same, ← agree k rfl]
    rfl
  · exact scatter_map distinct f g known values

/-- Slots that are related to groups are those of a function of the keys. -/
theorem exists_slots {R : β → α → Prop} (distinct : keys.Nodup) {g : GroupKey → β}
    {slots : List α} (default : α) (related : List.Forall₂ R (keys.map g) slots) :
    ∃ h : GroupKey → α, slots = keys.map h ∧ ∀ k ∈ keys, R (g k) (h k) := by
  rw [List.forall₂_map_left_iff] at related
  induction related with
  | nil => exact ⟨fun _ => default, rfl, nofun⟩
  | @cons k slot keys slots here _ ih =>
      obtain ⟨new, distinct⟩ := List.nodup_cons.mp distinct
      obtain ⟨h, rfl, each⟩ := ih distinct
      have others : ∀ j ∈ keys, (if j = k then slot else h j) = h j := by
        intro j member
        refine if_neg ?_
        rintro rfl
        exact new member
      refine ⟨fun j => if j = k then slot else h j, ?_, ?_⟩
      · rw [List.map_cons, if_pos rfl, List.map_congr_left others]
      · refine List.forall_mem_cons.mpr ⟨by simpa using here, fun j member => ?_⟩
        simp only [others j member]
        exact each j member

section Related

variable {γ : Type} {R : List γ → α → Prop} {S : List γ → β → Prop} {f : α → β → α}
  {ks : List GroupKey} {g : GroupKey → List γ} {slots : List α} {groups : List (List γ)}
  {values : List β}

/-- The entries of a key have what they stand for in the same places. -/
theorem forall₂_entriesOf (each : List.Forall₂ S groups values) (ks : List GroupKey)
    (k : GroupKey) :
    List.Forall₂ S (entriesOf (ks.zip groups) k) (entriesOf (ks.zip values) k) := by
  induction each generalizing ks with
  | nil => simp [entriesOf]
  | cons here _ ih =>
      cases ks with
      | nil => simp [entriesOf]
      | cons j ks =>
          rw [List.zip_cons_cons, List.zip_cons_cons, entriesOf_cons, entriesOf_cons]
          split
          · exact .cons here (ih ks)
          · exact ih ks

/-- **Scattered values arrive at the slots of their keys**, and the slots go on to say what all
values amount to. -/
theorem scatter_related (distinct : keys.Nodup) (known : ∀ k ∈ ks, k ∈ keys)
    (step : ∀ us s vs b, R us s → S vs b → R (us ++ vs) (f s b)) (default : α)
    (related : List.Forall₂ R (keys.map g) slots) (each : List.Forall₂ S groups values) :
    ∃ slots', scatter f slots (ks.map keys.idxOf) values = some slots' ∧
      List.Forall₂ R (keys.map fun k => g k ++ (entriesOf (ks.zip groups) k).flatten) slots' := by
  obtain ⟨h, rfl, amounts⟩ := exists_slots distinct default related
  refine ⟨_, scatter_map distinct f h known values, ?_⟩
  rw [List.forall₂_map_left_iff, List.forall₂_map_right_iff, List.forall₂_same]
  exact fun k member => foldl_related step (forall₂_entriesOf each ks k) (amounts k member)

/-- The slot of an only group may be changed at once instead, if it then says the same. -/
theorem modify_or_scatter_related (distinct : keys.Nodup) (known : ∀ k ∈ ks, k ∈ keys)
    (step : ∀ us s vs b, R us s → S vs b → R (us ++ vs) (f s b)) (default : α)
    (related : List.Forall₂ R (keys.map g) slots) (each : List.Forall₂ S groups values)
    (same : groups.length = ks.length) (whole : α → α)
    (agree : ∀ us s, R us s → R (us ++ groups.flatten) (whole s)) :
    ∃ slots', (if keys.length = 1 then modifyAt slots 0 whole
        else scatter f slots (ks.map keys.idxOf) values) = some slots' ∧
      List.Forall₂ R (keys.map fun k => g k ++ (entriesOf (ks.zip groups) k).flatten) slots' := by
  split
  · rename_i single
    obtain ⟨k, rfl⟩ := List.length_eq_one_iff.mp single
    have all : ∀ j ∈ ks, j = k := fun j member => List.mem_singleton.mp (known j member)
    obtain ⟨slot, _, here, last, rfl⟩ := List.forall₂_cons_left_iff.mp related
    cases last
    have entries := entriesOf_zip_single all same
    refine ⟨[whole slot], rfl, .cons ?_ .nil⟩
    simp only [entries]
    exact agree _ _ here
  · exact scatter_related distinct known step default related each

end Related

end Slots

/-! ## Extrema -/

namespace Extrema

variable {t : NumericType}

/-- The slots that hold some of these values. -/
def ofOptions (opts : List (Option t.Native)) : Extrema t :=
  ⟨opts.map Option.isSome, opts.map fun o => o.getD t.zero⟩

theorem take_ofOptions (better : t.Native → t.Native → Bool) (opts : List (Option t.Native))
    (gi : Nat) (value : t.Native) :
    (ofOptions opts).take better gi value =
      (modifyAt opts gi fun o => track better o value).map ofOptions := by
  unfold take modifyAt ofOptions
  simp only [List.getElem?_map]
  cases here : opts[gi]? with
  | none => rfl
  | some o =>
      obtain ⟨inside, entry⟩ := List.getElem?_eq_some_iff.mp here
      cases o with
      | none => simp [track, List.map_set]
      | some best =>
          have flags : opts.map Option.isSome = (opts.map Option.isSome).set gi true :=
            (List.set_getElem_self (by simpa using inside)).symm.trans (by simp [entry])
          have values : opts.map (fun o => o.getD t.zero) =
              (opts.map fun o => o.getD t.zero).set gi best :=
            (List.set_getElem_self (by simpa using inside)).symm.trans (by simp [entry])
          by_cases wins : better value best = true
          · simp [track, wins, List.map_set, ← flags]
          · simp [track, wins, List.map_set, ← flags, ← values]

theorem foldlM_take_ofOptions (better : t.Native → t.Native → Bool)
    (opts : List (Option t.Native)) (groupIndices : List Nat) (values : List t.Native) :
    (groupIndices.zip values).foldlM (fun s entry => take better s entry.1 entry.2)
        (ofOptions opts) =
      (scatter (fun o v => track better o v) opts groupIndices values).map ofOptions := by
  rw [scatter]
  generalize groupIndices.zip values = entries
  induction entries generalizing opts with
  | nil => rfl
  | cons entry rest ih =>
      rw [List.foldlM_cons, List.foldlM_cons, take_ofOptions]
      cases modifyAt opts entry.1 fun o => track better o entry.2 with
      | none => rfl
      | some next => exact ih next

theorem ensureCapacity_ofOptions (opts : List (Option t.Native)) (numGroups : Nat) :
    (ofOptions opts).ensureCapacity numGroups = ofOptions (grow opts numGroups none) := by
  unfold ensureCapacity ofOptions grow
  simp only [List.length_map]
  split
  · simp
  · rename_i enough
    simp [Nat.sub_eq_zero_of_le (Nat.le_of_not_lt enough)]

/-- **The best values so far**, group by group, whether the values are taken at once or one by
one. -/
theorem absorb_map {better : t.Native → t.Native → Bool} {key : t.Native → Int}
    (order : ∀ a b, better a b = decide (key a < key b)) {keys ks : List GroupKey}
    (distinct : keys.Nodup) (known : ∀ k ∈ ks, k ∈ keys) (g : GroupKey → Option t.Native)
    {values : List t.Native} (same : values.length = ks.length) :
    (ofOptions (keys.map g)).absorb better better values (ks.map keys.idxOf) keys.length =
      some (ofOptions (keys.map fun k =>
        (entriesOf (ks.zip values) k).foldl (track better) (g k))) := by
  unfold absorb
  split
  · rename_i single
    obtain ⟨k, rfl⟩ := List.length_eq_one_iff.mp single
    have all : ∀ j ∈ ks, j = k := fun j member => List.mem_singleton.mp (known j member)
    simp only [List.map_cons, List.map_nil, entriesOf_zip_single all same, bestOf]
    cases best : values.foldl (track better) none with
    | none =>
        cases values with
        | nil => rfl
        | cons v rest =>
            obtain ⟨b, run, _⟩ := foldl_track_some order rest v
            cases (show some b = none from run.symm.trans best)
    | some candidate =>
        show take better (ofOptions [g k]) 0 candidate = _
        rw [take_ofOptions, track_best order best]
        rfl
  · rw [foldlM_take_ofOptions, scatter_map distinct _ g known]
    rfl

/-- **What is kept of the values so far**, group by group, whether they are taken at once or one
by one, and even if the first choice among them is made by another order. -/
theorem absorb_related {kernel better : t.Native → t.Native → Bool} {valid : t.Native → Bool}
    {key : t.Native → Int} (chooses : Prefers kernel valid key) (prefers : Prefers better valid key)
    {keys ks : List GroupKey} (distinct : keys.Nodup) (known : ∀ k ∈ ks, k ∈ keys)
    {g : GroupKey → List t.Native} {opts : List (Option t.Native)}
    {groups : List (List t.Native)} {values : List t.Native}
    (related : List.Forall₂ (Kept valid key) (keys.map g) opts)
    (each : List.Forall₂ (fun vs b => Kept valid key vs (some b)) groups values)
    (same : groups.length = ks.length) :
    ∃ opts', (ofOptions opts).absorb kernel better values (ks.map keys.idxOf) keys.length =
        some (ofOptions opts') ∧
      List.Forall₂ (Kept valid key)
        (keys.map fun k => g k ++ (entriesOf (ks.zip groups) k).flatten) opts' := by
  unfold absorb
  split
  · rename_i single
    obtain ⟨k, rfl⟩ := List.length_eq_one_iff.mp single
    have all : ∀ j ∈ ks, j = k := fun j member => List.mem_singleton.mp (known j member)
    obtain ⟨o, _, here, last, rfl⟩ := List.forall₂_cons_left_iff.mp related
    cases last
    have entries := entriesOf_zip_single all same
    have best : Kept valid key ([] ++ groups.flatten) (values.foldl (track kernel) none) :=
      foldl_related (fun _ _ _ _ kept kept' => kept.track chooses kept') each rfl
    rw [List.nil_append] at best
    rw [bestOf]
    cases chosen : values.foldl (track kernel) none with
    | none =>
        rw [chosen] at best
        have empty : groups.flatten = [] := best
        refine ⟨[o], rfl, .cons ?_ .nil⟩
        simp only [entries, empty, List.append_nil]
        exact here
    | some candidate =>
        rw [chosen] at best
        refine ⟨[track better o candidate], ?_, .cons ?_ .nil⟩
        · simp only
          rw [take_ofOptions]
          rfl
        · simp only [entries]
          exact here.track prefers best
  · obtain ⟨opts', scattered, related'⟩ := scatter_related (f := fun o v => track better o v)
      distinct known (fun _ _ _ _ kept kept' => kept.track prefers kept') none related each
    refine ⟨opts', ?_, related'⟩
    rw [foldlM_take_ofOptions, scattered]
    rfl

end Extrema

/-! ## Numbers and their order -/

namespace NumericType

/-- The value is no NaN. -/
def isNumber : (t : NumericType) → t.Native → Bool
  | int _, _ => true
  | f32, v | f64, v => !v.isNaN

/-- The order of the numbers, in which the two zeros are the same. -/
def order : (t : NumericType) → t.Native → Int
  | int _, v => v.val
  | f32, v | f64, v => v.key

theorem lt_eq (t : NumericType) (a b : t.Native) :
    t.lt a b = (t.isNumber a && t.isNumber b && decide (t.order a < t.order b)) := by
  cases t <;> rfl

/-- The order of the kernels refines that of the numbers. -/
theorem key_lt_of_order_lt (t : NumericType) {a b : t.Native} (less : t.order a < t.order b) :
    t.key a < t.key b := by
  cases t with
  | int t => exact less
  | f32 => exact Ieee.totalKey_lt_of_key_lt less
  | f64 => exact Ieee.totalKey_lt_of_key_lt less

/-- `<` prefers the smaller number. -/
theorem prefers_lt (t : NumericType) : Prefers t.lt t.isNumber t.order := by
  intro a b validA validB
  rw [lt_eq, validA, validB, Bool.true_and, Bool.true_and, decide_eq_true_eq,
    decide_eq_false_iff_not, not_lt]
  exact ⟨le_of_lt, id⟩

/-- `>` prefers the greater number. -/
theorem prefers_gt (t : NumericType) :
    Prefers (fun a b => t.lt b a) t.isNumber fun v => -t.order v := by
  intro a b validA validB
  simp only [lt_eq, validA, validB, Bool.true_and, decide_eq_true_eq, decide_eq_false_iff_not,
    not_lt, neg_le_neg_iff]
  exact ⟨le_of_lt, id⟩

/-- The kernel of a minimum prefers the smaller number. -/
theorem prefers_key_lt (t : NumericType) :
    Prefers (fun a b => decide (t.key a < t.key b)) t.isNumber t.order := by
  intro a b _ _
  rw [decide_eq_true_eq, decide_eq_false_iff_not]
  exact ⟨fun less => not_lt.mp fun other => less.asymm (t.key_lt_of_order_lt other),
    fun notLess => not_lt.mp fun other => notLess (t.key_lt_of_order_lt other)⟩

/-- The kernel of a maximum prefers the greater number. -/
theorem prefers_key_gt (t : NumericType) :
    Prefers (fun a b => decide (t.key b < t.key a)) t.isNumber fun v => -t.order v := by
  intro a b _ _
  rw [decide_eq_true_eq, decide_eq_false_iff_not, neg_le_neg_iff, neg_le_neg_iff]
  exact ⟨fun less => not_lt.mp fun other => less.asymm (t.key_lt_of_order_lt other),
    fun notLess => not_lt.mp fun other => notLess (t.key_lt_of_order_lt other)⟩

end NumericType

/-! ## Aggregates -/

inductive FloatFunction where
  | sum
  | min
  | max

/-- The type of a float column. -/
@[reducible] def floatType : Bool → NumericType
  | false => .f32
  | true => .f64

/-- An aggregate of a column, with the type for which it is built. -/
inductive Aggregate where
  | count (columnName : String)
  | sum (t : IntType) (columnName : String)
  | min (t : IntType) (columnName : String)
  | max (t : IntType) (columnName : String)
  | avg (columnName : String)
  | float (function : FloatFunction) (double : Bool) (columnName : String)

/-! ### The values of a column -/

/-- What stands for the cells of a column that is not there. -/
def noCell : Value := ⟨.data .bool, false⟩

/-- The cells of a column, one for each row. -/
def cellsOf (batch : RecordBatch) (name : String) : List Value :=
  match batch.columnByName name with
  | some a => a.cells
  | none => List.replicate batch.numRows noCell

theorem cellsOf_length (batch : RecordBatch) (name : String) :
    (cellsOf batch name).length = batch.numRows := by
  unfold cellsOf
  split
  · rename_i a column
    obtain ⟨f, member, _⟩ := RecordBatch.mem_of_columnByName column
    rw [ArrayRef.cells_length, batch.lengths a (List.of_mem_zip member).2]
  · exact List.length_replicate

theorem cellsOf_eq {batch : RecordBatch} {name : String} {t : ArrowType} {values : List t.Native}
    (column : batch.columnByName name = some ⟨t, values⟩) :
    cellsOf batch name = values.map (Value.mk t) := by
  rw [cellsOf, column]
  rfl

/-- The integer of a cell; other cells have none. -/
def cellInt : Value → Int
  | ⟨.data (.int _), v⟩ => v.val
  | _ => 0

/-- A cell as a value of the type. -/
def nativeOf : (t : NumericType) → Value → t.Native
  | .int t, v => MachineInt.wrap t.signed t.top (cellInt v)
  | .f32, ⟨.data .f32, v⟩ => v
  | .f64, ⟨.data .f64, v⟩ => v
  | t, _ => t.zero

theorem nativeOf_mk (t : NumericType) (v : t.Native) :
    nativeOf t ⟨.data t.dataType, v⟩ = v := by
  cases t with
  | int t => exact MachineInt.wrap_val v
  | f32 => rfl
  | f64 => rfl

/-- A cell cast to `Float64`. -/
def cellF64 : Value → F64
  | ⟨.data (.int _), v⟩ => Ieee.ofInt 11 52 v.val
  | ⟨.data .f32, v⟩ => Ieee.convert 11 52 v
  | ⟨.data .f64, v⟩ => v
  | ⟨.data .bool, v⟩ => Ieee.ofInt 11 52 (Bool.toInt v)
  | ⟨.data .str, v⟩ => (Decimal.parseFloat 11 52 v).getD (Ieee.make 11 52 false 0)
  | ⟨.sumCount, _⟩ => Ieee.make 11 52 false 0

theorem castToF64_eq {t : DataType} (values : List t.Native) :
    Accumulator.castToF64 ⟨.data t, values⟩ =
      some ((values.map (Value.mk (.data t))).map cellF64) := by
  rw [List.map_map]
  cases t with
  | fixed t =>
      cases t with
      | f64 => exact congrArg some (List.map_id _).symm
      | _ => rfl
  | str => rfl

namespace Aggregate

def columnName : Aggregate → String
  | count c | sum _ c | min _ c | max _ c | avg c | float _ _ c => c

/-- The accumulator as it is built. -/
def accumulator (isPartial : Bool) : Aggregate → Accumulator
  | count c => .count c []
  | sum t c => .sum (.int t) c []
  | min t c => .min (.int t) c ⟨[], []⟩
  | max t c => .max (.int t) c ⟨[], []⟩
  | avg c => .avg c [] isPartial
  | float .sum double c => .sum (floatType double) c []
  | float .min double c => .min (floatType double) c ⟨[], []⟩
  | float .max double c => .max (floatType double) c ⟨[], []⟩

theorem bare_accumulator (isPartial : Bool) (a : Aggregate) :
    (a.accumulator isPartial).bare = a.accumulator isPartial := by
  cases a with
  | float function double c => cases function <;> rfl
  | _ => rfl

/-- How many there are, in 64 bits. -/
def countOf (values : List Value) : U64 := MachineInt.wrap false 63 values.length

/-- The sum, in the 64 bits of the wider type. -/
def sumOf (t : IntType) (values : List Value) : (NumericType.int t).widened.Native :=
  MachineInt.wrap _ _ (values.map cellInt).sum

/-- The cells as values of the type. -/
def natives (t : NumericType) (values : List Value) : List t.Native := values.map (nativeOf t)

/-- Less, as the running minimum compares; greater, as the running maximum does. -/
def less (t : IntType) (a b : (NumericType.int t).Native) : Bool := decide (a.val < b.val)
def greater (t : IntType) (a b : (NumericType.int t).Native) : Bool := decide (b.val < a.val)

def leastOf (t : IntType) (values : List Value) : Option (NumericType.int t).Native :=
  (natives (.int t) values).foldl (track (less t)) none

def greatestOf (t : IntType) (values : List Value) : Option (NumericType.int t).Native :=
  (natives (.int t) values).foldl (track (greater t)) none

/-- A sum of the values, each in the wider type. -/
def Sum (t : NumericType) (values : List Value) (s : t.widened.Native) : Prop :=
  TotalOf t.widened.add t.widened.zero ((natives t values).map t.widen) s

/-- What a minimum keeps of the values. -/
def Least (t : NumericType) (values : List Value) (o : Option t.Native) : Prop :=
  Kept t.isNumber t.order (natives t values) o

/-- What a maximum keeps of the values. -/
def Greatest (t : NumericType) (values : List Value) (o : Option t.Native) : Prop :=
  Kept t.isNumber (fun v => -t.order v) (natives t values) o

/-- The sum and the count of an average. -/
def Mean (values : List Value) (slot : F64 × U64) : Prop :=
  TotalOf Ieee.add (Ieee.make 11 52 false 0) (values.map cellF64) slot.1 ∧
    slot.2 = countOf values

/-- The accumulator has a slot for each of these groups, with what its values amount to. -/
def Holds (isPartial : Bool) (groups : List (List Value)) : Aggregate → Accumulator → Prop
  | count c, acc => acc = .count c (groups.map countOf)
  | sum t c, acc => acc = .sum (.int t) c (groups.map (sumOf t))
  | min t c, acc => acc = .min (.int t) c (.ofOptions (groups.map (leastOf t)))
  | max t c, acc => acc = .max (.int t) c (.ofOptions (groups.map (greatestOf t)))
  | avg c, acc => ∃ slots, acc = .avg c slots isPartial ∧ List.Forall₂ Mean groups slots
  | float .sum double c, acc => ∃ sums, acc = .sum (floatType double) c sums ∧
      List.Forall₂ (Sum (floatType double)) groups sums
  | float .min double c, acc => ∃ opts, acc = .min (floatType double) c (.ofOptions opts) ∧
      List.Forall₂ (Least (floatType double)) groups opts
  | float .max double c, acc => ∃ opts, acc = .max (floatType double) c (.ofOptions opts) ∧
      List.Forall₂ (Greatest (floatType double)) groups opts

theorem holds_accumulator (isPartial : Bool) (a : Aggregate) :
    a.Holds isPartial [] (a.accumulator isPartial) := by
  cases a with
  | avg c => exact ⟨[], rfl, .nil⟩
  | float function double c => cases function <;> exact ⟨[], rfl, .nil⟩
  | count c => rfl
  | sum t c => rfl
  | min t c => rfl
  | max t c => rfl

/-- New groups have no values yet. -/
theorem Holds.ensureCapacity {isPartial : Bool} {a : Aggregate} {acc : Accumulator}
    {old keys : List GroupKey} {g : GroupKey → List Value}
    (holds : a.Holds isPartial (old.map g) acc) (begins : old <+: keys) (distinct : keys.Nodup)
    (absent : ∀ k ∉ old, g k = []) :
    a.Holds isPartial (keys.map g) (acc.ensureCapacity keys.length) := by
  have grown : ∀ {α : Type} (f : List Value → α),
      grow ((old.map g).map f) keys.length (f []) = (keys.map g).map f := by
    intro α f
    rw [List.map_map, List.map_map]
    exact grow_map begins distinct fun k new => by rw [Function.comp_apply, absent k new]
  have related : ∀ {α : Type} {R : List Value → α → Prop} {slots : List α} {default : α},
      R [] default → List.Forall₂ R (old.map g) slots →
        List.Forall₂ R (keys.map g) (grow slots keys.length default) := by
    intro α R slots default none slotwise
    exact grow_related begins distinct (fun k new => by rwa [absent k new]) slotwise
  cases a with
  | count c =>
      subst holds
      exact congrArg (Accumulator.count c) (grown countOf)
  | sum t c =>
      subst holds
      exact congrArg (Accumulator.sum (.int t) c) (grown (sumOf t))
  | min t c =>
      subst holds
      refine congrArg (Accumulator.min (.int t) c) ((Extrema.ensureCapacity_ofOptions _ _).trans ?_)
      exact congrArg Extrema.ofOptions (grown (leastOf t))
  | max t c =>
      subst holds
      refine congrArg (Accumulator.max (.int t) c) ((Extrema.ensureCapacity_ofOptions _ _).trans ?_)
      exact congrArg Extrema.ofOptions (grown (greatestOf t))
  | avg c =>
      obtain ⟨slots, rfl, means⟩ := holds
      exact ⟨_, rfl, related ⟨.zero, rfl⟩ means⟩
  | float function double c =>
      cases function with
      | sum =>
          obtain ⟨sums, rfl, amounts⟩ := holds
          exact ⟨_, rfl, related (R := Sum (floatType double)) .zero amounts⟩
      | min =>
          obtain ⟨opts, rfl, kept⟩ := holds
          exact ⟨_, congrArg (Accumulator.min _ c) (Extrema.ensureCapacity_ofOptions _ _),
            related (R := Least (floatType double)) rfl kept⟩
      | max =>
          obtain ⟨opts, rfl, kept⟩ := holds
          exact ⟨_, congrArg (Accumulator.max _ c) (Extrema.ensureCapacity_ofOptions _ _),
            related (R := Greatest (floatType double)) rfl kept⟩

/-! ### More values -/

theorem addU64_countOf (us vs : List Value) :
    Accumulator.addU64 (countOf us) (countOf vs) = countOf (us ++ vs) := by
  rw [Accumulator.addU64, countOf, countOf, MachineInt.wrap_add_wrap, MachineInt.wrap_wrap_add,
    countOf, List.length_append]
  push_cast
  rfl

/-- Counting one by one. -/
theorem foldl_countOf {β : Type} (entries : List β) {us vs : List Value}
    (same : entries.length = vs.length) :
    entries.foldl (fun n _ => Accumulator.addU64 n (MachineInt.wrap false 63 1)) (countOf us) =
      countOf (us ++ vs) := by
  induction entries generalizing us vs with
  | nil =>
      obtain rfl := List.length_eq_zero_iff.mp same.symm
      simp
  | cons b rest ih =>
      cases vs with
      | nil => cases same
      | cons v vs =>
          have one : Accumulator.addU64 (countOf us) (MachineInt.wrap false 63 1) =
              countOf (us ++ [v]) := addU64_countOf us [v]
          rw [List.foldl_cons, one, ih (Nat.succ.inj same), List.append_assoc]
          rfl

theorem add_sumOf (t : IntType) (us vs : List Value) :
    (NumericType.int t).widened.add (sumOf t us) (sumOf t vs) = sumOf t (us ++ vs) := by
  show MachineInt.wrap _ _ ((MachineInt.wrap _ _ (us.map cellInt).sum).val +
    (MachineInt.wrap _ _ (vs.map cellInt).sum).val) = _
  rw [MachineInt.wrap_add_wrap, MachineInt.wrap_wrap_add, sumOf, List.map_append, List.sum_append]

/-- Adding values one by one, each in the wider type. -/
theorem foldl_sumOf (t : IntType) (values : List t.Native) (us : List Value) :
    values.foldl (fun s v => (NumericType.int t).widened.add s ((NumericType.int t).widen v))
        (sumOf t us) =
      sumOf t (us ++ values.map (Value.mk (.data (.int t)))) := by
  induction values generalizing us with
  | nil => simp
  | cons v rest ih =>
      have one : (NumericType.int t).widen v = sumOf t [⟨.data (.int t), v⟩] := by
        rw [sumOf, List.map_singleton, List.sum_singleton]
        rfl
      rw [List.foldl_cons, one, add_sumOf, ih, List.append_assoc]
      rfl

theorem natives_vals (t : NumericType) (values : List t.Native) :
    natives t (values.map (Value.mk (.data t.dataType))) = values := by
  rw [natives, List.map_map]
  exact (List.map_congr_left fun v _ => nativeOf_mk t v).trans (List.map_id _)

theorem natives_append (t : NumericType) (us vs : List Value) :
    natives t (us ++ vs) = natives t us ++ natives t vs := List.map_append

theorem foldl_leastOf (t : IntType) (values : List t.Native) (us : List Value) :
    values.foldl (track (less t)) (leastOf t us) =
      leastOf t (us ++ values.map (Value.mk (.data (.int t)))) := by
  rw [leastOf, leastOf, natives_append, List.foldl_append, natives_vals (.int t)]

theorem foldl_greatestOf (t : IntType) (values : List t.Native) (us : List Value) :
    values.foldl (track (greater t)) (greatestOf t us) =
      greatestOf t (us ++ values.map (Value.mk (.data (.int t)))) := by
  rw [greatestOf, greatestOf, natives_append, List.foldl_append, natives_vals (.int t)]

theorem less_order (t : IntType) (a b : (NumericType.int t).Native) :
    less t a b = decide (a.val < b.val) := rfl

theorem greater_order (t : IntType) (a b : (NumericType.int t).Native) :
    greater t a b = decide (-a.val < -b.val) := by
  simp [greater]

/-- A total and a value make a total. -/
theorem Sum.add {t : NumericType} {us vs : List Value} {s r : t.widened.Native}
    (sum : Sum t us s) (sum' : Sum t vs r) : Sum t (us ++ vs) (t.widened.add s r) := by
  rw [Sum, natives_append, List.map_append]
  exact TotalOf.add sum sum'

theorem Mean.add {us vs : List Value} {slot slot' : F64 × U64} (mean : Mean us slot)
    (mean' : Mean vs slot') :
    Mean (us ++ vs) (Ieee.add slot.1 slot'.1, Accumulator.addU64 slot.2 slot'.2) := by
  refine ⟨?_, ?_⟩
  · rw [List.map_append]
    exact TotalOf.add mean.1 mean'.1
  · rw [mean.2, mean'.2]
    exact addU64_countOf us vs

/-! ### Values of whole groups -/

/-- Adding up what whole groups amount to. -/
theorem foldl_groups {σ : Type} {value : List Value → σ} {add : σ → σ → σ}
    (law : ∀ us vs, add (value us) (value vs) = value (us ++ vs)) (groups : List (List Value))
    (us : List Value) : (groups.map value).foldl add (value us) = value (us ++ groups.flatten) := by
  induction groups generalizing us with
  | nil => simp
  | cons vs rest ih => rw [List.map_cons, List.foldl_cons, law, ih, List.flatten_cons,
      List.append_assoc]

/-- The best value of groups is the best of their best values. -/
theorem foldl_best {t : IntType} {better : t.Native → t.Native → Bool} {key : t.Native → Int}
    (order : ∀ a b, better a b = decide (key a < key b)) {groups : List (List Value)}
    (filled : ∀ vs ∈ groups, vs ≠ []) (default : t.Native) (us : List Value) :
    (groups.map fun vs => ((natives (.int t) vs).foldl (track better) none).getD default).foldl
        (track better) ((natives (.int t) us).foldl (track better) none) =
      (natives (.int t) (us ++ groups.flatten)).foldl (track better) none := by
  induction groups generalizing us with
  | nil => simp
  | cons vs rest ih =>
      have step : track better ((natives (.int t) us).foldl (track better) none)
          (((natives (.int t) vs).foldl (track better) none).getD default) =
          (natives (.int t) (us ++ vs)).foldl (track better) none := by
        rw [natives_append, List.foldl_append]
        cases best : (natives (.int t) vs).foldl (track better) none with
        | some m => exact (track_best order best _).symm
        | none =>
            cases vs with
            | nil => exact (filled [] (by simp) rfl).elim
            | cons v vs =>
                obtain ⟨b, run, _⟩ :=
                  foldl_track_some order (natives (.int t) vs) (nativeOf (.int t) v)
                cases (show some b = none from run.symm.trans best)
      rw [List.map_cons, List.foldl_cons, step, ih fun later member =>
        filled later (by simp [member]),
        List.flatten_cons, List.append_assoc]

theorem scatter_groups {σ : Type} {value : List Value → σ} {add : σ → σ → σ}
    (law : ∀ us vs, add (value us) (value vs) = value (us ++ vs)) {keys ks : List GroupKey}
    (distinct : keys.Nodup) (known : ∀ k ∈ ks, k ∈ keys) (g : GroupKey → List Value)
    (groups : List (List Value)) :
    scatter add ((keys.map g).map value) (ks.map keys.idxOf) (groups.map value) =
      some ((keys.map fun k => g k ++ (entriesOf (ks.zip groups) k).flatten).map value) := by
  rw [List.map_map, scatter_map distinct add _ known, List.map_map]
  congr 1
  refine List.map_congr_left fun k _ => ?_
  rw [entriesOf_zip_map]
  exact foldl_groups law _ _

section Absorb

variable {keys ks : List GroupKey} {t : IntType} {values : List t.Native}

/-- The running minimum of each group. -/
theorem absorb_least (distinct : keys.Nodup) (known : ∀ k ∈ ks, k ∈ keys)
    (same : values.length = ks.length) (g : GroupKey → List Value) :
    (Extrema.ofOptions ((keys.map g).map (leastOf t))).absorb
        (fun a b => decide ((NumericType.int t).key a < (NumericType.int t).key b))
        (NumericType.int t).lt values (ks.map keys.idxOf) keys.length =
      some (.ofOptions ((keys.map fun k =>
        g k ++ (entriesOf (ks.zip values) k).map (Value.mk (.data (.int t)))).map
          (leastOf t))) := by
  rw [List.map_map, List.map_map]
  refine (Extrema.absorb_map (less_order t) distinct known (leastOf t ∘ g) same).trans ?_
  exact congrArg (fun opts => some (Extrema.ofOptions opts))
    (List.map_congr_left fun k _ => foldl_leastOf t _ _)

/-- The running maximum of each group. -/
theorem absorb_greatest (distinct : keys.Nodup) (known : ∀ k ∈ ks, k ∈ keys)
    (same : values.length = ks.length) (g : GroupKey → List Value) :
    (Extrema.ofOptions ((keys.map g).map (greatestOf t))).absorb
        (fun a b => decide ((NumericType.int t).key b < (NumericType.int t).key a))
        (fun a b => (NumericType.int t).lt b a) values (ks.map keys.idxOf) keys.length =
      some (.ofOptions ((keys.map fun k =>
        g k ++ (entriesOf (ks.zip values) k).map (Value.mk (.data (.int t)))).map
          (greatestOf t))) := by
  rw [List.map_map, List.map_map]
  refine (Extrema.absorb_map (greater_order t) distinct known (greatestOf t ∘ g) same).trans ?_
  exact congrArg (fun opts => some (Extrema.ofOptions opts))
    (List.map_congr_left fun k _ => foldl_greatestOf t _ _)

/-- The running minimum of each group, given those of whole groups. -/
theorem absorb_least_groups (distinct : keys.Nodup) (known : ∀ k ∈ ks, k ∈ keys)
    {groups : List (List Value)} (same : groups.length = ks.length)
    (filled : ∀ vs ∈ groups, vs ≠ []) (default : t.Native) (g : GroupKey → List Value) :
    (Extrema.ofOptions ((keys.map g).map (leastOf t))).absorb
        (fun a b => decide ((NumericType.int t).key a < (NumericType.int t).key b))
        (NumericType.int t).lt (groups.map fun vs => (leastOf t vs).getD default)
        (ks.map keys.idxOf) keys.length =
      some (.ofOptions ((keys.map fun k =>
        g k ++ (entriesOf (ks.zip groups) k).flatten).map (leastOf t))) := by
  rw [absorb_least distinct known ((List.length_map _).trans same)]
  refine congrArg (fun opts => some (Extrema.ofOptions opts)) ?_
  rw [List.map_map, List.map_map]
  refine List.map_congr_left fun k _ => ?_
  rw [Function.comp_apply, ← foldl_leastOf, entriesOf_zip_map]
  exact foldl_best (less_order t) (fun vs member =>
    filled vs (List.of_mem_zip (mem_entriesOf.mp member)).2) default (g k)

/-- The running maximum of each group, given those of whole groups. -/
theorem absorb_greatest_groups (distinct : keys.Nodup) (known : ∀ k ∈ ks, k ∈ keys)
    {groups : List (List Value)} (same : groups.length = ks.length)
    (filled : ∀ vs ∈ groups, vs ≠ []) (default : t.Native) (g : GroupKey → List Value) :
    (Extrema.ofOptions ((keys.map g).map (greatestOf t))).absorb
        (fun a b => decide ((NumericType.int t).key b < (NumericType.int t).key a))
        (fun a b => (NumericType.int t).lt b a)
        (groups.map fun vs => (greatestOf t vs).getD default) (ks.map keys.idxOf) keys.length =
      some (.ofOptions ((keys.map fun k =>
        g k ++ (entriesOf (ks.zip groups) k).flatten).map (greatestOf t))) := by
  rw [absorb_greatest distinct known ((List.length_map _).trans same)]
  refine congrArg (fun opts => some (Extrema.ofOptions opts)) ?_
  rw [List.map_map, List.map_map]
  refine List.map_congr_left fun k _ => ?_
  rw [Function.comp_apply, ← foldl_greatestOf, entriesOf_zip_map]
  exact foldl_best (greater_order t) (fun vs member =>
    filled vs (List.of_mem_zip (mem_entriesOf.mp member)).2) default (g k)

end Absorb

/-! ### Sums and extrema of any type -/

section Typed

variable {t : NumericType} {keys ks : List GroupKey} {g : GroupKey → List Value}
  {groups : List (List Value)}

/-- Single cells are entries as they are. -/
theorem flatten_singletons {β γ : Type} (f : β → γ) (ks : List GroupKey) (values : List β)
    (k : GroupKey) :
    (entriesOf (ks.zip (values.map fun v => [f v])) k).flatten =
      (entriesOf (ks.zip values) k).map f := by
  rw [entriesOf_zip_map, ← List.flatMap_def]
  exact List.flatMap_pure_eq_map f _

theorem natives_flatten (t : NumericType) (ks : List GroupKey) (groups : List (List Value))
    (k : GroupKey) :
    (entriesOf (ks.zip (groups.map (natives t))) k).flatten =
      natives t (entriesOf (ks.zip groups) k).flatten := by
  rw [entriesOf_zip_map, natives, List.map_flatten]
  rfl

/-- What is kept of the cells of each group, and then of those of whole groups as well. -/
theorem absorb_groups {kernel better : t.Native → t.Native → Bool} {key : t.Native → Int}
    (chooses : Prefers kernel t.isNumber key) (prefers : Prefers better t.isNumber key)
    (distinct : keys.Nodup) (known : ∀ k ∈ ks, k ∈ keys) {opts : List (Option t.Native)}
    {values : List t.Native}
    (related : List.Forall₂ (fun vs => Kept t.isNumber key (natives t vs)) (keys.map g) opts)
    (each : List.Forall₂ (fun vs b => Kept t.isNumber key (natives t vs) (some b)) groups values)
    (same : groups.length = ks.length) :
    ∃ opts', (Extrema.ofOptions opts).absorb kernel better values (ks.map keys.idxOf)
        keys.length = some (.ofOptions opts') ∧
      List.Forall₂ (fun vs => Kept t.isNumber key (natives t vs))
        (keys.map fun k => g k ++ (entriesOf (ks.zip groups) k).flatten) opts' := by
  have before : List.Forall₂ (Kept t.isNumber key) (keys.map fun k => natives t (g k)) opts := by
    rw [List.forall₂_map_left_iff] at related ⊢
    exact related
  obtain ⟨opts', absorbed, after⟩ := Extrema.absorb_related chooses prefers distinct known before
    (List.forall₂_map_left_iff.mpr each) ((List.length_map _).trans same)
  refine ⟨opts', absorbed, ?_⟩
  rw [List.forall₂_map_left_iff] at after ⊢
  refine after.imp fun k o kept => ?_
  rwa [natives_flatten, ← natives_append] at kept

/-- The cells of a column, one for each row, as groups of their own. -/
theorem forall₂_singletons {β : Type} {R : List Value → β → Prop} {f : β → Value}
    (each : ∀ v, R [f v] v) (values : List β) :
    List.Forall₂ R (values.map fun v => [f v]) values :=
  List.forall₂_map_left_iff.mpr (List.forall₂_same.mpr fun v _ => each v)

theorem natives_single (t : NumericType) (v : t.Native) :
    natives t [⟨.data t.dataType, v⟩] = [v] := congrArg (fun w => [w]) (nativeOf_mk t v)

variable {acc : Accumulator} {batch : RecordBatch} {c : String}

/-- A sum takes a batch. -/
theorem update_sum (distinct : keys.Nodup) (known : ∀ k ∈ ks, k ∈ keys)
    {sums : List t.widened.Native} (grown : acc.ensureCapacity keys.length = .sum t c sums)
    (amounts : List.Forall₂ (Sum t) (keys.map g) sums)
    (reads : Accumulator.FieldOf batch.fields c (.data t.dataType))
    (rows : ks.length = batch.numRows) :
    ∃ sums', acc.update batch (ks.map keys.idxOf) keys.length = .ok (.sum t c sums') ∧
      List.Forall₂ (Sum t)
        (keys.map fun k => g k ++ entriesOf (ks.zip (cellsOf batch c)) k) sums' := by
  obtain ⟨arr, column, length⟩ := reads.column rfl
  have each : List.Forall₂ (fun vs v => natives t vs = [v])
      (arr.map fun v => [⟨.data t.dataType, v⟩]) arr := forall₂_singletons (natives_single t) arr
  have step : ∀ us s vs v, Sum t us s → natives t vs = [v] →
      Sum t (us ++ vs) (t.widened.add s (t.widen v)) := by
    intro us s vs v sum one
    refine sum.add ?_
    rw [Sum, one]
    exact .value _
  obtain ⟨sums', scattered, amounts'⟩ := modify_or_scatter_related distinct known step
    t.widened.zero amounts each ((List.length_map _).trans (length.trans rows.symm))
    (fun s => t.widened.add s
      (arr.foldl (fun acc v => t.widened.add acc (t.widen v)) t.widened.zero))
    fun us s sum => by
      have whole := foldl_related step each (show Sum t [] t.widened.zero from .zero)
      rw [List.nil_append] at whole
      exact sum.add whole
  refine ⟨sums', ?_, ?_⟩
  · unfold Accumulator.update
    simp only [grown, column, Outcome.ofOption, Outcome.ok_bind, Accumulator.values,
      ArrayRef.downcast_mk, Outcome.orPanic_some, scattered]
  · simp only [flatten_singletons] at amounts'
    simpa only [cellsOf_eq column, entriesOf_zip_map] using amounts'

/-- A minimum or a maximum takes the cells of a column. -/
theorem absorb_column {kernel better : t.Native → t.Native → Bool} {key : t.Native → Int}
    (chooses : Prefers kernel t.isNumber key) (prefers : Prefers better t.isNumber key)
    (distinct : keys.Nodup) (known : ∀ k ∈ ks, k ∈ keys) {opts : List (Option t.Native)}
    (related : List.Forall₂ (fun vs => Kept t.isNumber key (natives t vs)) (keys.map g) opts)
    {arr : List t.Native} (column : batch.columnByName c = some ⟨.data t.dataType, arr⟩)
    (same : arr.length = ks.length) :
    ∃ opts', (Extrema.ofOptions opts).absorb kernel better arr (ks.map keys.idxOf)
        keys.length = some (.ofOptions opts') ∧
      List.Forall₂ (fun vs => Kept t.isNumber key (natives t vs))
        (keys.map fun k => g k ++ entriesOf (ks.zip (cellsOf batch c)) k) opts' := by
  have each : List.Forall₂ (fun vs b => Kept t.isNumber key (natives t vs) (some b))
      (arr.map fun v => [⟨.data t.dataType, v⟩]) arr :=
    forall₂_singletons (fun v => natives_single t v ▸ kept_single v) arr
  obtain ⟨opts', absorbed, kept⟩ := absorb_groups chooses prefers distinct known related each
    ((List.length_map _).trans same)
  refine ⟨opts', absorbed, ?_⟩
  simp only [flatten_singletons] at kept
  simpa only [cellsOf_eq column, entriesOf_zip_map] using kept

/-- A minimum takes a batch. -/
theorem update_least (distinct : keys.Nodup) (known : ∀ k ∈ ks, k ∈ keys)
    {opts : List (Option t.Native)}
    (grown : acc.ensureCapacity keys.length = .min t c (.ofOptions opts))
    (kept : List.Forall₂ (Least t) (keys.map g) opts)
    (reads : Accumulator.FieldOf batch.fields c (.data t.dataType))
    (rows : ks.length = batch.numRows) :
    ∃ opts', acc.update batch (ks.map keys.idxOf) keys.length =
        .ok (.min t c (.ofOptions opts')) ∧
      List.Forall₂ (Least t)
        (keys.map fun k => g k ++ entriesOf (ks.zip (cellsOf batch c)) k) opts' := by
  obtain ⟨arr, column, length⟩ := reads.column rfl
  obtain ⟨opts', absorbed, kept'⟩ := absorb_column t.prefers_key_lt t.prefers_lt distinct known
    kept column (length.trans rows.symm)
  refine ⟨opts', ?_, kept'⟩
  unfold Accumulator.update
  simp only [grown, column, Outcome.ofOption, Outcome.ok_bind, Accumulator.values,
    ArrayRef.downcast_mk, Outcome.orPanic_some, absorbed]

/-- A maximum takes a batch. -/
theorem update_greatest (distinct : keys.Nodup) (known : ∀ k ∈ ks, k ∈ keys)
    {opts : List (Option t.Native)}
    (grown : acc.ensureCapacity keys.length = .max t c (.ofOptions opts))
    (kept : List.Forall₂ (Greatest t) (keys.map g) opts)
    (reads : Accumulator.FieldOf batch.fields c (.data t.dataType))
    (rows : ks.length = batch.numRows) :
    ∃ opts', acc.update batch (ks.map keys.idxOf) keys.length =
        .ok (.max t c (.ofOptions opts')) ∧
      List.Forall₂ (Greatest t)
        (keys.map fun k => g k ++ entriesOf (ks.zip (cellsOf batch c)) k) opts' := by
  obtain ⟨arr, column, length⟩ := reads.column rfl
  obtain ⟨opts', absorbed, kept'⟩ := absorb_column t.prefers_key_gt t.prefers_gt distinct known
    kept column (length.trans rows.symm)
  refine ⟨opts', ?_, kept'⟩
  unfold Accumulator.update
  simp only [grown, column, Outcome.ofOption, Outcome.ok_bind, Accumulator.values,
    ArrayRef.downcast_mk, Outcome.orPanic_some, absorbed]

/-- A sum takes those of whole groups. -/
theorem merge_sum (distinct : keys.Nodup) (known : ∀ k ∈ ks, k ∈ keys)
    {sums sent : List t.widened.Native} (named : acc.outputField.name = "sum(" ++ c ++ ")")
    (grown : acc.ensureCapacity keys.length = .sum t c sums)
    (amounts : List.Forall₂ (Sum t) (keys.map g) sums)
    (sentAmounts : List.Forall₂ (Sum t) groups sent)
    (column : batch.columnByName ("sum(" ++ c ++ ")") =
      some ⟨.data t.widened.dataType, sent⟩) :
    ∃ sums', acc.merge batch (ks.map keys.idxOf) keys.length = .ok (.sum t c sums') ∧
      List.Forall₂ (Sum t)
        (keys.map fun k => g k ++ (entriesOf (ks.zip groups) k).flatten) sums' := by
  obtain ⟨sums', scattered, amounts'⟩ := scatter_related distinct known
    (fun _ _ _ _ sum sum' => sum.add sum') t.widened.zero amounts sentAmounts
  refine ⟨sums', ?_, amounts'⟩
  unfold Accumulator.merge
  simp only [grown, named, column, Outcome.ofOption, Outcome.ok_bind, Accumulator.values,
    ArrayRef.downcast_mk, Outcome.orPanic_some, scattered]

/-- What is sent for groups with values is what is kept of them. -/
theorem forall₂_sent {key : t.Native → Int} {sent : List (Option t.Native)}
    (filled : ∀ vs ∈ groups, vs ≠ [])
    (kept : List.Forall₂ (fun vs => Kept t.isNumber key (natives t vs)) groups sent) :
    List.Forall₂ (fun vs b => Kept t.isNumber key (natives t vs) (some b)) groups
      (Extrema.ofOptions sent).running := by
  rw [Extrema.ofOptions, List.forall₂_map_right_iff]
  refine ((List.forall₂_and_left _ _).mpr ⟨filled, kept⟩).imp ?_
  rintro vs o ⟨some, keeps⟩
  cases o with
  | none => exact (some (List.map_eq_nil_iff.mp keeps)).elim
  | some b => exact keeps

/-- A minimum takes those of whole groups. -/
theorem merge_least (distinct : keys.Nodup) (known : ∀ k ∈ ks, k ∈ keys)
    {opts sent : List (Option t.Native)} (named : acc.outputField.name = "min(" ++ c ++ ")")
    (grown : acc.ensureCapacity keys.length = .min t c (.ofOptions opts))
    (kept : List.Forall₂ (Least t) (keys.map g) opts) (filled : ∀ vs ∈ groups, vs ≠ [])
    (rows : groups.length = ks.length) (sentKept : List.Forall₂ (Least t) groups sent)
    (column : batch.columnByName ("min(" ++ c ++ ")") =
      some ⟨.data t.dataType, (Extrema.ofOptions sent).running⟩) :
    ∃ opts', acc.merge batch (ks.map keys.idxOf) keys.length =
        .ok (.min t c (.ofOptions opts')) ∧
      List.Forall₂ (Least t)
        (keys.map fun k => g k ++ (entriesOf (ks.zip groups) k).flatten) opts' := by
  obtain ⟨opts', absorbed, kept'⟩ := absorb_groups t.prefers_key_lt t.prefers_lt distinct known
    kept (forall₂_sent filled sentKept) rows
  refine ⟨opts', ?_, kept'⟩
  unfold Accumulator.merge
  simp only [grown, named, column, Outcome.ofOption, Outcome.ok_bind, Accumulator.values,
    ArrayRef.downcast_mk, Outcome.orPanic_some, absorbed]

/-- A maximum takes those of whole groups. -/
theorem merge_greatest (distinct : keys.Nodup) (known : ∀ k ∈ ks, k ∈ keys)
    {opts sent : List (Option t.Native)} (named : acc.outputField.name = "max(" ++ c ++ ")")
    (grown : acc.ensureCapacity keys.length = .max t c (.ofOptions opts))
    (kept : List.Forall₂ (Greatest t) (keys.map g) opts) (filled : ∀ vs ∈ groups, vs ≠ [])
    (rows : groups.length = ks.length) (sentKept : List.Forall₂ (Greatest t) groups sent)
    (column : batch.columnByName ("max(" ++ c ++ ")") =
      some ⟨.data t.dataType, (Extrema.ofOptions sent).running⟩) :
    ∃ opts', acc.merge batch (ks.map keys.idxOf) keys.length =
        .ok (.max t c (.ofOptions opts')) ∧
      List.Forall₂ (Greatest t)
        (keys.map fun k => g k ++ (entriesOf (ks.zip groups) k).flatten) opts' := by
  obtain ⟨opts', absorbed, kept'⟩ := absorb_groups t.prefers_key_gt t.prefers_gt distinct known
    kept (forall₂_sent filled sentKept) rows
  refine ⟨opts', ?_, kept'⟩
  unfold Accumulator.merge
  simp only [grown, named, column, Outcome.ofOption, Outcome.ok_bind, Accumulator.values,
    ArrayRef.downcast_mk, Outcome.orPanic_some, absorbed]

end Typed

section Phases

variable {isPartial : Bool} {a : Aggregate} {acc : Accumulator} {batch : RecordBatch}
  {old keys ks : List GroupKey} {g : GroupKey → List Value}

/-- **A batch is taken**: the values of its rows go to the groups of their keys. -/
theorem update_holds (holds : a.Holds isPartial (old.map g) acc) (begins : old <+: keys)
    (distinct : keys.Nodup) (absent : ∀ k ∉ old, g k = []) (known : ∀ k ∈ ks, k ∈ keys)
    (rows : ks.length = batch.numRows)
    (reads : (a.accumulator isPartial).ReadsFrom batch.fields) :
    ∃ acc', acc.update batch (ks.map keys.idxOf) keys.length = .ok acc' ∧
      a.Holds isPartial
        (keys.map fun k => g k ++ entriesOf (ks.zip (cellsOf batch a.columnName)) k) acc' := by
  have grown := holds.ensureCapacity begins distinct absent
  have cells := (cellsOf_length batch a.columnName).trans rows.symm
  unfold Accumulator.update
  cases a with
  | count c =>
      have length : (ks.map keys.idxOf).length = (cellsOf batch c).length :=
        (List.length_map _).trans cells.symm
      have scattered := modify_or_scatter_map distinct
        (fun n _ => Accumulator.addU64 n (MachineInt.wrap false 63 1)) (countOf ∘ g) known
        (List.length_map keys.idxOf)
        (fun n => Accumulator.addU64 n (MachineInt.wrap false 63 (ks.map keys.idxOf).length))
        fun k _ => by
          rw [Function.comp_apply, foldl_countOf _ length, ← addU64_countOf, length]
          rfl
      rw [show acc.ensureCapacity keys.length = _ from grown, List.map_map]
      simp only [scattered, Outcome.orPanic_some, Outcome.ok_bind]
      refine ⟨_, rfl, congrArg (Accumulator.count c) ?_⟩
      rw [List.map_map]
      exact List.map_congr_left fun k _ =>
        foldl_countOf _ (length_entriesOf_zip (List.length_map _) cells k)
  | sum t c =>
      obtain ⟨arr, column, length⟩ := Accumulator.FieldOf.column reads rfl
      have scattered := modify_or_scatter_map distinct
        (fun s v => (NumericType.int t).widened.add s ((NumericType.int t).widen v))
        (sumOf t ∘ g) known (length.trans rows.symm)
        (fun s => (NumericType.int t).widened.add s (arr.foldl (fun acc v =>
          (NumericType.int t).widened.add acc ((NumericType.int t).widen v))
          (NumericType.int t).widened.zero))
        fun k _ => by
          rw [Function.comp_apply, foldl_sumOf, ← add_sumOf]
          exact congrArg _ (foldl_sumOf t arr [])
      rw [show acc.ensureCapacity keys.length = _ from grown, List.map_map]
      simp only [column, Outcome.ofOption, Outcome.ok_bind, Accumulator.values,
        ArrayRef.downcast_mk, Outcome.orPanic_some, scattered]
      refine ⟨_, rfl, congrArg (Accumulator.sum (.int t) c) ?_⟩
      rw [List.map_map]
      refine List.map_congr_left fun k _ => ?_
      rw [Function.comp_apply, foldl_sumOf, Function.comp_apply, columnName, cellsOf_eq column,
        entriesOf_zip_map]
  | min t c =>
      obtain ⟨arr, column, length⟩ := Accumulator.FieldOf.column reads rfl
      rw [show acc.ensureCapacity keys.length = _ from grown]
      simp only [column, Outcome.ofOption, Outcome.ok_bind, Accumulator.values,
        ArrayRef.downcast_mk, absorb_least distinct known (length.trans rows.symm),
        Outcome.orPanic_some, columnName, cellsOf_eq column, entriesOf_zip_map]
      exact ⟨_, rfl, rfl⟩
  | max t c =>
      obtain ⟨arr, column, length⟩ := Accumulator.FieldOf.column reads rfl
      rw [show acc.ensureCapacity keys.length = _ from grown]
      simp only [column, Outcome.ofOption, Outcome.ok_bind, Accumulator.values,
        ArrayRef.downcast_mk, absorb_greatest distinct known (length.trans rows.symm),
        Outcome.orPanic_some, columnName, cellsOf_eq column, entriesOf_zip_map]
      exact ⟨_, rfl, rfl⟩
  | avg c =>
      obtain ⟨t, field⟩ := reads
      obtain ⟨arr, column, length⟩ := field.column rfl
      obtain ⟨slots, same, means⟩ := grown
      have each : List.Forall₂ (fun vs v => vs.map cellF64 = [v])
          ((arr.map (Value.mk (.data t))).map fun v => [v])
          ((arr.map (Value.mk (.data t))).map cellF64) := by
        rw [List.forall₂_map_left_iff, List.forall₂_map_right_iff, List.forall₂_same]
        exact fun _ _ => rfl
      obtain ⟨slots', scattered, means'⟩ := scatter_related
        (f := fun (slot : F64 × U64) v =>
          (Ieee.add slot.1 v, Accumulator.addU64 slot.2 (MachineInt.wrap false 63 1)))
        distinct known (fun us slot vs v mean one => by
          have single : Mean vs (v, MachineInt.wrap false 63 1) := by
            refine ⟨one ▸ .value v, ?_⟩
            rw [countOf, ← List.length_map (f := cellF64), one]
            rfl
          exact mean.add single) Accumulator.zeroAvg means each
      rw [same]
      simp only [column, Outcome.ofOption, Outcome.ok_bind, castToF64_eq, scattered,
        Outcome.orPanic_some]
      refine ⟨_, rfl, slots', rfl, ?_⟩
      simp only [flatten_singletons] at means'
      simpa [columnName, cellsOf_eq column] using means'
  | float function double c =>
      cases function with
      | sum =>
          obtain ⟨sums, same, amounts⟩ := grown
          obtain ⟨sums', updated, amounts'⟩ := update_sum distinct known same amounts reads rows
          exact ⟨_, updated, sums', rfl, amounts'⟩
      | min =>
          obtain ⟨opts, same, kept⟩ := grown
          obtain ⟨opts', updated, kept'⟩ := update_least distinct known same kept reads rows
          exact ⟨_, updated, opts', rfl, kept'⟩
      | max =>
          obtain ⟨opts, same, kept⟩ := grown
          obtain ⟨opts', updated, kept'⟩ := update_greatest distinct known same kept reads rows
          exact ⟨_, updated, opts', rfl, kept'⟩

/-- **A partial result is merged**: the values of its groups go to the groups of their keys. -/
theorem merge_holds (holds : a.Holds isPartial (old.map g) acc) (begins : old <+: keys)
    (distinct : keys.Nodup) (absent : ∀ k ∉ old, g k = []) (known : ∀ k ∈ ks, k ∈ keys)
    {groups : List (List Value)} (rows : groups.length = ks.length)
    (filled : ∀ vs ∈ groups, vs ≠ []) {sent : Accumulator} (sends : a.Holds true groups sent)
    (column : batch.columnByName (a.accumulator true).outputField.name =
      some sent.materialize) :
    ∃ acc', acc.merge batch (ks.map keys.idxOf) keys.length = .ok acc' ∧
      a.Holds isPartial (keys.map fun k => g k ++ (entriesOf (ks.zip groups) k).flatten) acc' := by
  have grown := holds.ensureCapacity begins distinct absent
  cases a with
  | count c =>
      subst sends holds
      obtain ⟨arr, column, scattered⟩ : ∃ arr : List (ArrowType.data (.int .u64)).Native,
          batch.columnByName ("count(" ++ c ++ ")") = some ⟨.data (.int .u64), arr⟩ ∧
          scatter Accumulator.addU64 ((keys.map g).map countOf) (ks.map keys.idxOf) arr = some _ :=
        ⟨_, column, scatter_groups addU64_countOf distinct known g groups⟩
      unfold Accumulator.merge
      rw [show Accumulator.ensureCapacity keys.length _ = _ from grown]
      simp only [Accumulator.outputField, column, Outcome.ofOption, Outcome.ok_bind,
        Accumulator.values, ArrayRef.downcast_mk, Outcome.orPanic_some, scattered]
      exact ⟨_, rfl, rfl⟩
  | sum t c =>
      subst sends holds
      replace column : batch.columnByName ("sum(" ++ c ++ ")") =
        some ⟨.data (NumericType.int t).widened.dataType, groups.map (sumOf t)⟩ := column
      unfold Accumulator.merge
      rw [show Accumulator.ensureCapacity keys.length _ = _ from grown]
      simp only [Accumulator.outputField, column, Outcome.ofOption, Outcome.ok_bind,
        Accumulator.values, ArrayRef.downcast_mk, Outcome.orPanic_some,
        scatter_groups (add_sumOf t) distinct known]
      exact ⟨_, rfl, rfl⟩
  | min t c =>
      subst sends holds
      replace column : batch.columnByName ("min(" ++ c ++ ")") = some ⟨.data (.int t),
          groups.map fun vs => (leastOf t vs).getD (NumericType.int t).zero⟩ :=
        column.trans (congrArg (fun vs => some (ArrayRef.mk (.data (.int t)) vs)) List.map_map)
      unfold Accumulator.merge
      rw [show Accumulator.ensureCapacity keys.length _ = _ from grown]
      simp only [Accumulator.outputField, column, Outcome.ofOption, Outcome.ok_bind,
        Accumulator.values, ArrayRef.downcast_mk, Outcome.orPanic_some,
        absorb_least_groups distinct known rows filled]
      exact ⟨_, rfl, rfl⟩
  | max t c =>
      subst sends holds
      replace column : batch.columnByName ("max(" ++ c ++ ")") = some ⟨.data (.int t),
          groups.map fun vs => (greatestOf t vs).getD (NumericType.int t).zero⟩ :=
        column.trans (congrArg (fun vs => some (ArrayRef.mk (.data (.int t)) vs)) List.map_map)
      unfold Accumulator.merge
      rw [show Accumulator.ensureCapacity keys.length _ = _ from grown]
      simp only [Accumulator.outputField, column, Outcome.ofOption, Outcome.ok_bind,
        Accumulator.values, ArrayRef.downcast_mk, Outcome.orPanic_some,
        absorb_greatest_groups distinct known rows filled]
      exact ⟨_, rfl, rfl⟩
  | avg c =>
      obtain ⟨sentSlots, rfl, sentMeans⟩ := sends
      obtain ⟨_, rfl, _⟩ := holds
      obtain ⟨slots, same, means⟩ := grown
      replace column : batch.columnByName ("avg(" ++ c ++ ")") = some ⟨.sumCount, sentSlots⟩ :=
        column
      obtain ⟨slots', scattered, means'⟩ := scatter_related
        (f := fun (slot other : F64 × U64) =>
          (Ieee.add slot.1 other.1, Accumulator.addU64 slot.2 other.2))
        distinct known (fun _ _ _ _ mean mean' => mean.add mean') Accumulator.zeroAvg means
        sentMeans
      unfold Accumulator.merge
      rw [same]
      simp only [Accumulator.outputField, column, Outcome.ok_bind,
        Accumulator.values, ArrayRef.downcast_mk, Outcome.orPanic_some, scattered]
      exact ⟨_, rfl, slots', rfl, means'⟩
  | float function double c =>
      cases function with
      | sum =>
          obtain ⟨sent, rfl, sentAmounts⟩ := sends
          obtain ⟨_, rfl, _⟩ := holds
          obtain ⟨sums, same, amounts⟩ := grown
          obtain ⟨sums', merged, amounts'⟩ :=
            merge_sum distinct known rfl same amounts sentAmounts column
          exact ⟨_, merged, sums', rfl, amounts'⟩
      | min =>
          obtain ⟨sent, rfl, sentKept⟩ := sends
          obtain ⟨_, rfl, _⟩ := holds
          obtain ⟨opts, same, kept⟩ := grown
          obtain ⟨opts', merged, kept'⟩ :=
            merge_least distinct known rfl same kept filled rows sentKept column
          exact ⟨_, merged, opts', rfl, kept'⟩
      | max =>
          obtain ⟨sent, rfl, sentKept⟩ := sends
          obtain ⟨_, rfl, _⟩ := holds
          obtain ⟨opts, same, kept⟩ := grown
          obtain ⟨opts', merged, kept'⟩ :=
            merge_greatest distinct known rfl same kept filled rows sentKept column
          exact ⟨_, merged, opts', rfl, kept'⟩

end Phases

end Aggregate

end TinyOlap.Execution
