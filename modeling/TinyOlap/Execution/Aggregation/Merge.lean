import TinyOlap.Execution.Aggregation.Aggregate

/-!
# Merging without a panic

The final aggregation looks up the columns of a partial result by name: the group columns,
and for each accumulator the column with its slots. A group column that is missing is a
panic, and so are slots of another type than expected. Where a partial result has what is
looked up (`AggregateExec.Accepts`), merging it does not panic: every slot an accumulator
touches is there, because its capacity was raised to the number of groups before.
-/

set_option autoImplicit false

namespace TinyOlap.Execution

open Library Library.WorkPool Catalog Arrow

/-! ## Slots -/

section Slots

variable {α β : Type}

theorem grow_length (slots : List α) (numGroups : Nat) (default : α) :
    (grow slots numGroups default).length = max slots.length numGroups := by
  rw [grow, List.length_append, List.length_replicate]
  omega

/-- The slots of known groups are there. -/
theorem scatter_eq_some {f : α → β → α} {slots : List α} {groupIndices : List Nat}
    {values : List β} (known : ∀ gi ∈ groupIndices, gi < slots.length) :
    ∃ slots', scatter f slots groupIndices values = some slots' := by
  unfold scatter
  have entries : ∀ entry ∈ groupIndices.zip values, entry.1 < slots.length :=
    fun entry member => known entry.1 (List.of_mem_zip member).1
  revert entries
  generalize groupIndices.zip values = rest
  intro entries
  induction rest generalizing slots with
  | nil => exact ⟨slots, rfl⟩
  | cons entry rest ih =>
      have inside := entries entry (by simp)
      have changed : modifyAt slots entry.1 (f · entry.2) =
          some (slots.set entry.1 (f slots[entry.1] entry.2)) := by
        rw [modifyAt, List.getElem?_eq_getElem inside]
        rfl
      rw [List.foldlM_cons, changed]
      refine ih (fun gi member => ?_) fun later member => ?_
      · rw [List.length_set]
        exact known gi member
      · rw [List.length_set]
        exact entries later (by simp [member])

end Slots

namespace Extrema

variable {t : NumericType}

/-- There is a flag for each slot, and a slot for each of so many groups. -/
def Sized (n : Nat) (s : Extrema t) : Prop :=
  n ≤ s.hasValue.length ∧ s.hasValue.length = s.running.length

theorem sized_ensureCapacity {s : Extrema t} (sized : s.Sized 0) (numGroups : Nat) :
    (s.ensureCapacity numGroups).Sized numGroups := by
  unfold ensureCapacity
  split
  · simp only [Sized, grow_length]
    have := sized.2
    omega
  · exact ⟨by omega, sized.2⟩

theorem take_eq_some {better : t.Native → t.Native → Bool} {s : Extrema t} {n gi : Nat}
    (sized : s.Sized n) (known : gi < n) (value : t.Native) :
    ∃ s', s.take better gi value = some s' ∧ s'.Sized n := by
  have inside : gi < s.hasValue.length := lt_of_lt_of_le known sized.1
  have inside' : gi < s.running.length := sized.2 ▸ inside
  unfold take
  rw [List.getElem?_eq_getElem inside, List.getElem?_eq_getElem inside']
  cases s.hasValue[gi] with
  | true =>
      refine ⟨_, rfl, ?_⟩
      by_cases wins : better value s.running[gi] = true
      · rw [if_pos wins]
        exact ⟨sized.1, by simpa using sized.2⟩
      · rw [if_neg wins]
        exact sized
  | false => exact ⟨_, rfl, by simpa using sized.1, by simpa using sized.2⟩

theorem absorb_eq_some {kernel better : t.Native → t.Native → Bool} {s : Extrema t}
    {values : List t.Native} {groupIndices : List Nat} {numGroups : Nat}
    (sized : s.Sized numGroups) (known : ∀ gi ∈ groupIndices, gi < numGroups) :
    ∃ s', s.absorb kernel better values groupIndices numGroups = some s' ∧ s'.Sized numGroups := by
  unfold absorb
  by_cases single : numGroups = 1
  · rw [if_pos single]
    cases bestOf kernel values with
    | none => exact ⟨s, rfl, sized⟩
    | some candidate => exact take_eq_some sized (by omega) candidate
  · rw [if_neg single]
    have entries : ∀ entry ∈ groupIndices.zip values, entry.1 < numGroups :=
      fun entry member => known entry.1 (List.of_mem_zip member).1
    revert entries
    generalize groupIndices.zip values = rest
    intro entries
    induction rest generalizing s with
    | nil => exact ⟨s, rfl, sized⟩
    | cons entry rest ih =>
        obtain ⟨s', taken, sized'⟩ :=
          @take_eq_some t better s _ _ sized (entries entry (by simp)) entry.2
        rw [List.foldlM_cons, taken]
        exact ih sized' fun later member => entries later (by simp [member])

end Extrema

/-! ## Accumulators -/

namespace Accumulator

/-- The type of the slots, as they travel from one accumulator to another. -/
@[reducible] def slotType : Accumulator → ArrowType
  | count .. => .data (.int .u64)
  | sum t .. => .data t.widened.dataType
  | min t .. | max t .. => .data t.dataType
  | avg .. => .sumCount

/-- A batch with these fields has the slots, of the right type. Only an average is not
content with an error when they are missing. -/
def Accepts (fields : List Field) (acc : Accumulator) : Prop :=
  match fields.find? fun f => f.name = acc.outputField.name with
  | some f => f.dataType = acc.slotType
  | none => acc.slotType ≠ .sumCount

/-- The slots of minima and maxima have their flags. -/
def Even : Accumulator → Prop
  | min _ _ slots | max _ _ slots => slots.Sized 0
  | _ => True

/-- The accumulators differ in their slots only. -/
def SameKind (acc acc' : Accumulator) : Prop :=
  acc'.outputField = acc.outputField ∧ acc'.slotType = acc.slotType

theorem SameKind.accepts {acc acc' : Accumulator} (same : acc.SameKind acc') {fields : List Field}
    (accepts : acc.Accepts fields) : acc'.Accepts fields := by
  rw [Accepts, same.1, same.2]
  exact accepts

/-- What is found under the name of an accumulator's output has the type of its slots. -/
theorem Accepts.column {acc : Accumulator} {batch : RecordBatch}
    (accepts : acc.Accepts batch.fields) :
    (batch.columnByName acc.outputField.name = none ∧ acc.slotType ≠ .sumCount) ∨
    ∃ values, batch.columnByName acc.outputField.name = some ⟨acc.slotType, values⟩ := by
  unfold Accepts at accepts
  rcases batch.columnByName_cases acc.outputField.name with ⟨found, column⟩ |
    ⟨f, ⟨type, values⟩, found, column, typed⟩
  · rw [found] at accepts
    exact .inl ⟨column, accepts⟩
  · rw [found] at accepts
    obtain rfl : type = acc.slotType := typed.trans accepts
    exact .inr ⟨values, column⟩

/-- An accumulator that merges what it accepts returns an error or itself, with other
slots. -/
theorem merge_cases {acc : Accumulator} {batch : RecordBatch} {groupIndices : List Nat}
    {numGroups : Nat} (accepts : acc.Accepts batch.fields) (even : acc.Even)
    (known : ∀ gi ∈ groupIndices, gi < numGroups) :
    (∃ e, merge batch groupIndices numGroups acc = .err e) ∨
    ∃ acc', merge batch groupIndices numGroups acc = .ok acc' ∧ acc.SameKind acc' ∧ acc'.Even := by
  have room : ∀ {α : Type} (slots : List α) (default : α), ∀ gi ∈ groupIndices,
      gi < (grow slots numGroups default).length := by
    intro α slots default gi member
    rw [grow_length]
    exact lt_max_of_lt_right (known gi member)
  rcases accepts.column with ⟨column, notAvg⟩ | ⟨found, column⟩
  · cases acc with
    | count c counts => exact .inl ⟨_, by simp only [merge, column]; rfl⟩
    | sum t c sums => exact .inl ⟨_, by simp only [merge, column]; rfl⟩
    | min t c slots => exact .inl ⟨_, by simp only [merge, column]; rfl⟩
    | max t c slots => exact .inl ⟨_, by simp only [merge, column]; rfl⟩
    | avg c slots isPartial => exact (notAvg rfl).elim
  · refine .inr ?_
    cases acc with
    | count c counts =>
        obtain ⟨slots, scattered⟩ := @scatter_eq_some _ _ addU64 _ _ found (room counts zeroU64)
        refine ⟨.count c slots, ?_, ⟨rfl, rfl⟩, trivial⟩
        simp only [merge, column, ensureCapacity, Outcome.ofOption, Outcome.ok_bind, values,
          slotType, ArrayRef.downcast_mk, Outcome.orPanic_some, scattered]
    | sum t c sums =>
        obtain ⟨slots, scattered⟩ :=
          @scatter_eq_some _ _ t.widened.add _ _ found (room sums t.widened.zero)
        refine ⟨.sum t c slots, ?_, ⟨rfl, rfl⟩, trivial⟩
        simp only [merge, column, ensureCapacity, Outcome.ofOption, Outcome.ok_bind, values,
          slotType, ArrayRef.downcast_mk, Outcome.orPanic_some, scattered]
    | min t c slots =>
        obtain ⟨slots', absorbed, sized⟩ := @Extrema.absorb_eq_some t
          (fun a b => decide (t.key a < t.key b)) t.lt _ found _ _
          (Extrema.sized_ensureCapacity even numGroups) known
        refine ⟨.min t c slots', ?_, ⟨rfl, rfl⟩, ⟨Nat.zero_le _, sized.2⟩⟩
        simp only [merge, column, ensureCapacity, Outcome.ofOption, Outcome.ok_bind, values,
          slotType, ArrayRef.downcast_mk, Outcome.orPanic_some, absorbed]
    | max t c slots =>
        obtain ⟨slots', absorbed, sized⟩ := @Extrema.absorb_eq_some t
          (fun a b => decide (t.key b < t.key a)) (fun a b => t.lt b a) _ found _ _
          (Extrema.sized_ensureCapacity even numGroups) known
        refine ⟨.max t c slots', ?_, ⟨rfl, rfl⟩, ⟨Nat.zero_le _, sized.2⟩⟩
        simp only [merge, column, ensureCapacity, Outcome.ofOption, Outcome.ok_bind, values,
          slotType, ArrayRef.downcast_mk, Outcome.orPanic_some, absorbed]
    | avg c slots isPartial =>
        obtain ⟨slots', scattered⟩ := @scatter_eq_some _ _ (fun (slot other : F64 × U64) =>
          (Ieee.add slot.1 other.1, addU64 slot.2 other.2)) _ _ found (room slots zeroAvg)
        refine ⟨.avg c slots' isPartial, ?_, ⟨rfl, rfl⟩, trivial⟩
        simp only [merge, column, ensureCapacity, Outcome.ok_bind, values,
          slotType, ArrayRef.downcast_mk, Outcome.orPanic_some, scattered]

theorem even_ensureCapacity {acc : Accumulator} (even : acc.Even) (numGroups : Nat) :
    (acc.ensureCapacity numGroups).Even := by
  cases acc with
  | min t c slots => exact ⟨Nat.zero_le _, (Extrema.sized_ensureCapacity even numGroups).2⟩
  | max t c slots => exact ⟨Nat.zero_le _, (Extrema.sized_ensureCapacity even numGroups).2⟩
  | count c counts => trivial
  | sum t c sums => trivial
  | avg c slots isPartial => trivial

theorem sameKind_ensureCapacity (acc : Accumulator) (numGroups : Nat) :
    acc.SameKind (acc.ensureCapacity numGroups) := by
  cases acc <;> exact ⟨rfl, rfl⟩

end Accumulator

/-! ## Groups -/

/-- The indices of a table are below its length. -/
def GroupTable.Indexed (groups : GroupTable) : Prop := ∀ entry ∈ groups, entry.2 < groups.length

theorem groupIndex_lt {groups : GroupTable} (indexed : groups.Indexed) (key : GroupKey) :
    (groupIndex groups key).1.Indexed ∧
      (groupIndex groups key).2 < (groupIndex groups key).1.length ∧
      groups.length ≤ (groupIndex groups key).1.length := by
  unfold groupIndex
  cases found : groups.lookup key with
  | some idx =>
      obtain ⟨before, after, split, _⟩ := List.lookup_eq_some_iff.mp found
      have member : (key, idx) ∈ groups := by rw [split]; simp
      exact ⟨indexed, indexed _ member, Nat.le_refl _⟩
  | none =>
      have new : groups.length % 2 ^ 32 < groups.length + 1 :=
        Nat.lt_succ_of_le (Nat.mod_le _ _)
      refine ⟨fun entry member => ?_, by simpa using new, by simp⟩
      rw [List.length_append, List.length_singleton]
      rcases List.mem_append.mp member with old | last
      · exact Nat.lt_succ_of_lt (indexed entry old)
      · rw [List.mem_singleton.mp last]
        exact new

/-- The groups of rows are in the table afterwards. -/
theorem assignGroups_lt {groups : GroupTable} (indexed : groups.Indexed) (keys : List GroupKey) :
    (assignGroups groups keys).1.Indexed ∧
      (∀ gi ∈ (assignGroups groups keys).2, gi < (assignGroups groups keys).1.length) ∧
      groups.length ≤ (assignGroups groups keys).1.length := by
  induction keys generalizing groups with
  | nil => exact ⟨indexed, by simp [assignGroups], Nat.le_refl _⟩
  | cons key rest ih =>
      obtain ⟨indexed', inside, larger⟩ := groupIndex_lt indexed key
      obtain ⟨last, all, larger'⟩ := ih indexed'
      refine ⟨last, fun gi member => ?_, larger.trans larger'⟩
      rcases List.mem_cons.mp member with rfl | later
      · exact lt_of_lt_of_le inside larger'
      · exact all gi later

/-! ## The final aggregation -/

namespace AggregateExec

/-- A batch with these fields has the group columns and the slots. -/
def Accepts (fields : List Field) (s : AggregateExec) : Prop :=
  (∀ f ∈ s.groupByFields, ∃ f' ∈ fields, f'.name = f.name) ∧
    ∀ acc ∈ s.accumulators, acc.Accepts fields

/-- The indices of the groups and the flags of the slots are in order. -/
structure Ready (s : AggregateExec) : Prop where
  indexed : s.groupToIndex.Indexed
  even : ∀ acc ∈ s.accumulators, acc.Even

/-- Accumulators that return an error or one of their kind do so together. -/
theorem absorbAll_cases {absorb : Accumulator → ExecResult Accumulator} {numGroups : Nat}
    {accumulators : List Accumulator} (even : ∀ acc ∈ accumulators, acc.Even)
    (each : ∀ acc ∈ accumulators, (∃ e, absorb acc = .err e) ∨
      ∃ acc', absorb acc = .ok acc' ∧ acc.SameKind acc' ∧ acc'.Even) :
    (absorbAll absorb numGroups accumulators).1 ≠ .panic ∧
      List.Forall₂ (fun acc acc' => acc.SameKind acc' ∧ acc'.Even) accumulators
        (absorbAll absorb numGroups accumulators).2 := by
  have unchanged : ∀ rest : List Accumulator, (∀ acc ∈ rest, acc.Even) →
      List.Forall₂ (fun acc acc' => acc.SameKind acc' ∧ acc'.Even) rest rest := by
    intro rest even
    exact List.forall₂_same.mpr fun acc member => ⟨⟨rfl, rfl⟩, even acc member⟩
  induction accumulators with
  | nil => exact ⟨by simp [absorbAll], .nil⟩
  | cons acc rest ih =>
      have evenRest : ∀ acc ∈ rest, acc.Even := fun acc member => even acc (by simp [member])
      obtain ⟨calm, kinds⟩ := ih evenRest fun acc member => each acc (by simp [member])
      rw [absorbAll]
      rcases each acc (by simp) with ⟨e, failed⟩ | ⟨acc', absorbed, same, evenAcc⟩
      · rw [failed]
        refine ⟨by simp, .cons ⟨acc.sameKind_ensureCapacity _, ?_⟩ (unchanged rest evenRest)⟩
        exact Accumulator.even_ensureCapacity (even acc (by simp)) _
      · rw [absorbed]
        exact ⟨calm, .cons ⟨same, evenAcc⟩ kinds⟩

/-- The group columns of an accepted batch are found. -/
theorem groupKeys_ne_panic {s : AggregateExec} {batch : RecordBatch}
    (accepts : s.Accepts batch.fields) : s.groupKeys batch ≠ .panic := by
  have found : ∀ f ∈ s.groupByFields, ∃ a, batch.columnByName f.name = some a := by
    intro f member
    obtain ⟨f', here, named⟩ := accepts.1 f member
    rcases batch.columnByName_cases f.name with ⟨none, _⟩ | ⟨_, a, _, column, _⟩
    · exact absurd (List.find?_eq_none.mp none f' here) (by simp [named])
    · exact ⟨a, column⟩
  have arrays : ∃ arrays, s.groupByFields.mapM (fun f =>
      (.orPanic (batch.columnByName f.name) : ExecResult ArrayRef)) = .ok arrays := by
    refine ⟨_, Outcome.mapM_ok (g := fun f => (batch.columnByName f.name).getD ⟨.sumCount, []⟩)
      fun f member => ?_⟩
    obtain ⟨a, column⟩ := found f member
    rw [column]
    rfl
  obtain ⟨arrays, looked⟩ := arrays
  rw [groupKeys, looked, Outcome.ok_bind, convertColumns]
  split <;> simp

/-- What a merge leaves of an aggregation: it may have failed, but not panicked, and accepts
what it accepted before. -/
theorem absorbBatch_merge {s : AggregateExec} {batch : RecordBatch}
    (accepts : s.Accepts batch.fields) (ready : s.Ready) :
    (s.absorbBatch Accumulator.merge batch).1 ≠ .panic ∧
      (s.absorbBatch Accumulator.merge batch).2.Ready ∧
      ∀ fields, s.Accepts fields → (s.absorbBatch Accumulator.merge batch).2.Accepts fields := by
  have kept : ∀ {accumulators' : List Accumulator} {groups : GroupTable},
      List.Forall₂ (fun acc acc' => acc.SameKind acc' ∧ acc'.Even) s.accumulators accumulators' →
      groups.Indexed →
      AggregateExec.Ready { s with accumulators := accumulators', groupToIndex := groups } ∧
      ∀ fields, s.Accepts fields →
        AggregateExec.Accepts fields
          { s with accumulators := accumulators', groupToIndex := groups } := by
    intro accumulators' groups kinds indexed
    have source : ∀ acc' ∈ accumulators', ∃ acc ∈ s.accumulators, acc.SameKind acc' ∧
        acc'.Even := by
      intro acc' member
      exact exists_of_mem_right kinds member
    refine ⟨⟨indexed, fun acc' member => ?_⟩, fun fields accepts => ⟨accepts.1,
      fun acc' member => ?_⟩⟩
    · obtain ⟨_, _, _, even⟩ := source acc' member
      exact even
    · obtain ⟨acc, here, same, _⟩ := source acc' member
      exact same.accepts (accepts.2 acc here)
  unfold absorbBatch
  split
  · have known : ∀ gi ∈ List.replicate batch.numRows 0, gi < 1 := by
      intro gi member
      rw [(List.mem_replicate.mp member).2]
      exact Nat.zero_lt_one
    obtain ⟨calm, kinds⟩ := @absorbAll_cases (Accumulator.merge batch _ 1) 1 _ ready.even
      fun acc member =>
        Accumulator.merge_cases (accepts.2 acc member) (ready.even acc member) known
    exact ⟨calm, kept kinds ready.indexed⟩
  · cases found : s.groupKeys batch with
    | ok keys =>
        obtain ⟨indexed, known, _⟩ := assignGroups_lt ready.indexed keys
        obtain ⟨calm, kinds⟩ := @absorbAll_cases
          (Accumulator.merge batch (assignGroups s.groupToIndex keys).2 _) _ _ ready.even
          fun acc member =>
            Accumulator.merge_cases (accepts.2 acc member) (ready.even acc member) known
        exact ⟨calm, kept kinds indexed⟩
    | err e => exact ⟨by simp, ready, fun _ accepts => accepts⟩
    | panic => exact (groupKeys_ne_panic accepts found).elim

/-- **Accepted results are merged without a panic.** -/
theorem consume_ne_panic {s : AggregateExec} {results : List BatchResult}
    (accepts : ∀ batch, .ok batch ∈ results → s.Accepts batch.fields) (ready : s.Ready) :
    s.consume results ≠ .panic := by
  induction results generalizing s with
  | nil => simp [consume]
  | cons result rest ih =>
      cases result with
      | error e => simp [consume]
      | ok batch =>
          obtain ⟨calm, ready', accepts'⟩ := absorbBatch_merge (accepts batch (by simp)) ready
          rw [consume]
          cases absorbed : s.absorbBatch Accumulator.merge batch with
          | mk outcome s' =>
              rw [absorbed] at calm ready' accepts'
              cases outcome with
              | ok _ =>
                  exact ih (fun batch member =>
                    accepts' batch.fields (accepts batch (by simp [member]))) ready'
              | err e => simp
              | panic => exact (calm rfl).elim

/-- Results with an error among them are not merged to the end. -/
theorem consume_ne_ok {s s' : AggregateExec} {results : List BatchResult} {e : ExecutionError}
    (erred : .error e ∈ results) : s.consume results ≠ .ok s' := by
  induction results generalizing s with
  | nil => cases erred
  | cons result rest ih =>
      cases result with
      | error e' => simp [consume]
      | ok batch =>
          have later : .error e ∈ rest := by simpa using erred
          rw [consume]
          split
          · exact ih later
          · simp
          · simp

end AggregateExec

end TinyOlap.Execution
