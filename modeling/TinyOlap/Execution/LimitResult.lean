import Mathlib.Data.List.TakeWhile
import TinyOlap.Execution.RowOperators

/-!
# What a limit returns, call by call

A limit stands on top of a child that may answer its calls with batches of any size, with
errors, and with none, in any order. Until the limit is reached each call of the limit pulls
the child once and hands on its answer, of which a batch may be cut. From then on the limit
returns none and leaves the child alone. Its rows are the first rows of the child.
-/

set_option autoImplicit false

namespace TinyOlap.Execution

open Library Library.WorkPool Catalog Arrow

variable {σ : Type} {limit : Nat} (pull : σ → Option BatchResult × σ)

/-! ## One call -/

/-- The rows of an answer to a call of `next_batch`. -/
def answerRows : Option BatchResult → List (List Value)
  | some (.ok b) => b.rows
  | _ => []

/-- The rows of the answers that come before the first none. -/
def rowsBeforeEnd (answered : List (Option BatchResult)) : List (List Value) :=
  (answered.takeWhile Option.isSome).flatMap answerRows

/-- What is answered after the first none does not count. -/
theorem rowsBeforeEnd_append {answered : List (Option BatchResult)} (ended : none ∈ answered)
    (more : List (Option BatchResult)) :
    rowsBeforeEnd (answered ++ more) = rowsBeforeEnd answered := by
  have short : ¬ (answered.takeWhile Option.isSome).length = answered.length := by
    intro same
    have all := (List.takeWhile_prefix Option.isSome).eq_of_length same
    have here : none ∈ answered.takeWhile Option.isSome := all.symm ▸ ended
    simpa using List.mem_takeWhile_imp here
  rw [rowsBeforeEnd, List.takeWhile_append, if_neg short, rowsBeforeEnd]

/-- How a limit hands on an answer of its child. -/
inductive HandsOn : Option BatchResult → Option BatchResult → Prop where
  | whole (b : RecordBatch) : HandsOn (some (.ok b)) (some (.ok b))
  | cut (b : RecordBatch) (count : Nat) (less : count < b.numRows) :
      HandsOn (some (.ok b)) (some (.ok (b.slice 0 count)))
  | error (e : ExecutionError) : HandsOn (some (.error e)) (some (.error e))
  | done : HandsOn none none

theorem HandsOn.isSome_eq {answer handed : Option BatchResult} (hands : HandsOn answer handed) :
    handed.isSome = answer.isSome := by
  cases hands <;> rfl

/-- **A call below the limit** pulls once, hands the answer on, and counts its rows. -/
theorem limitExec_call {emitted : Nat} (below : emitted < limit) (s : σ) :
    ∃ handed, (limitExec limit).call pull emitted s =
        .ret handed (emitted + min (limit - emitted) (answerRows (pull s).1).length, (pull s).2) ∧
      HandsOn (pull s).1 handed ∧
      answerRows handed = (answerRows (pull s).1).take (limit - emitted) := by
  have going : ¬ (limitExec limit).gate emitted = true := by
    simpa [limitExec] using below
  rw [Operator.call, if_neg going]
  rcases (pull s).1 with _ | e | b
  · exact ⟨none, by simp [Operator.react, limitExec, Turn.map, answerRows], .done,
      List.take_nil.symm⟩
  · exact ⟨some (.error e), by simp [Operator.react, limitExec, Turn.map, answerRows], .error e,
      List.take_nil.symm⟩
  · simp only [Operator.react, limitExec, answerRows, RecordBatch.rows_length]
    by_cases whole : b.numRows ≤ limit - emitted
    · refine ⟨some (.ok b), ?_, .whole b, ?_⟩
      · rw [if_pos whole, Nat.min_eq_right whole]
        rfl
      · exact (List.take_of_length_le ((RecordBatch.rows_length b).symm ▸ whole)).symm
    · have rest : emitted + (limit - emitted) = limit := by omega
      refine ⟨some (.ok (b.slice 0 (limit - emitted))), ?_, .cut b _ (by omega), ?_⟩
      · rw [if_neg whole, Nat.min_eq_left (by omega), rest]
        rfl
      · show (b.slice 0 (limit - emitted)).rows = _
        rw [RecordBatch.rows_slice, List.drop_zero]

/-! ## All calls -/

/-- The calls of a limit that has emitted some rows already. -/
theorem calls_limitExec {emitted : Nat} (inside : emitted ≤ limit) (s : σ) (k : Nat) :
    ∃ pulls handed, pulls ≤ k ∧
      (limitExec limit).calls pull k (emitted, s) =
        some (handed ++ List.replicate (k - pulls) none,
          (emitted + min (limit - emitted) ((answers pull pulls s).1.flatMap answerRows).length,
            (answers pull pulls s).2)) ∧
      List.Forall₂ HandsOn (answers pull pulls s).1 handed ∧
      (∀ j < pulls, ((answers pull j s).1.flatMap answerRows).length < limit - emitted) ∧
      (pulls < k → limit - emitted ≤ ((answers pull pulls s).1.flatMap answerRows).length) ∧
      rowsBeforeEnd (handed ++ List.replicate (k - pulls) none) =
        (rowsBeforeEnd (answers pull k s).1).take (limit - emitted) := by
  induction k generalizing emitted s with
  | zero =>
      refine ⟨0, [], le_rfl, ?_, .nil, by simp, by simp, ?_⟩
      · simp [Operator.calls, answers]
      · simp [rowsBeforeEnd, answers]
  | succ k ih =>
      by_cases reached : limit ≤ emitted
      · have gated : (limitExec limit).gate emitted = true := by simpa [limitExec] using reached
        have none_left : limit - emitted = 0 := Nat.sub_eq_zero_of_le reached
        refine ⟨0, [], Nat.zero_le _, ?_, .nil, by simp, ?_, ?_⟩
        · simp [Operator.calls_of_gate gated, answers]
        · rw [none_left]
          exact fun _ => Nat.zero_le _
        · simp [rowsBeforeEnd, none_left, List.replicate_succ]
      · obtain ⟨first, called, hands, firstRows⟩ :=
          limitExec_call pull (Nat.lt_of_not_le reached) s
        have inside' : emitted + min (limit - emitted) (answerRows (pull s).1).length ≤ limit := by
          omega
        obtain ⟨pulls, handed, enough, later, forwards, short, full, rows⟩ :=
          ih inside' (pull s).2
        refine ⟨pulls + 1, first :: handed, by omega, ?_, ?_, ?_, ?_, ?_⟩
        · rw [Operator.calls_succ called, later, Option.map_some]
          simp only [answers, List.flatMap_cons, List.length_append, Nat.add_sub_add_right,
            List.cons_append, Option.some.injEq, Prod.mk.injEq, true_and, and_true]
          omega
        · exact .cons hands forwards
        · intro j before
          cases j with
          | zero =>
              simp only [answers, List.flatMap_nil, List.length_nil]
              omega
          | succ j =>
              have less := short j (by omega)
              simp only [answers, List.flatMap_cons, List.length_append]
              omega
        · intro before
          have reaches := full (by omega)
          simp only [answers, List.flatMap_cons, List.length_append]
          omega
        · have same := hands.isSome_eq
          rw [Nat.add_sub_add_right, List.cons_append]
          simp only [rowsBeforeEnd, answers] at rows ⊢
          cases ended : (pull s).1 with
          | none =>
              rw [ended, Option.isSome_none] at same
              simp [same]
          | some result =>
              rw [ended, Option.isSome_some] at same
              rw [List.takeWhile_cons_of_pos same, List.takeWhile_cons_of_pos rfl,
                List.flatMap_cons, List.flatMap_cons, List.take_append, rows, firstRows, ended]
              congr 2
              omega

/-- **A limit returns exactly the first rows of its child.** Over any child, in any number of
calls of `next_batch`: none of them panics; the first calls, and only those, pull the child,
once each, and hand on its answers, errors included, at their place; a call pulls exactly if the
rows the child has answered so far do not reach the limit; the number of emitted rows never
exceeds the limit; and the rows returned before the first none are the first rows of the child.
When the limit has returned none, this holds of the child's answers to any number of
calls. -/
theorem limitExec_emits_prefix (limit : Nat) (pull : σ → Option BatchResult × σ) (s : σ)
    (k : Nat) :
    ∃ pulls handed emitted, pulls ≤ k ∧
      let results := handed ++ List.replicate (k - pulls) none
      (limitExec limit).calls pull k (0, s) = some (results, (emitted, (answers pull pulls s).2)) ∧
      List.Forall₂ HandsOn (answers pull pulls s).1 handed ∧
      (∀ j < pulls, ((answers pull j s).1.flatMap answerRows).length < limit) ∧
      (pulls < k → limit ≤ ((answers pull pulls s).1.flatMap answerRows).length) ∧
      emitted = min limit ((answers pull pulls s).1.flatMap answerRows).length ∧
      emitted ≤ limit ∧
      rowsBeforeEnd results = (rowsBeforeEnd (answers pull k s).1).take limit ∧
      (none ∈ results → ∀ m, k ≤ m →
        rowsBeforeEnd results = (rowsBeforeEnd (answers pull m s).1).take limit) := by
  obtain ⟨pulls, handed, enough, called, hands, short, full, rows⟩ :=
    calls_limitExec pull (Nat.zero_le limit) s k
  rw [Nat.sub_zero] at short full rows called
  rw [Nat.zero_add] at called
  refine ⟨pulls, handed, _, enough, called, hands, short, full, rfl, Nat.min_le_left _ _, rows, ?_⟩
  intro ended m later
  obtain ⟨_, _, _, calledLater, _, _, _, rowsLater⟩ :=
    calls_limitExec pull (Nat.zero_le limit) s m
  rw [Nat.sub_zero] at rowsLater
  rw [← rowsLater]
  -- the results of more calls only add to the results, after the first none
  obtain ⟨more, rfl⟩ := Nat.exists_eq_add_of_le later
  rw [Operator.calls_add, called, Option.bind_some] at calledLater
  obtain ⟨⟨rest, state⟩, _, same⟩ := Option.map_eq_some_iff.mp calledLater
  rw [← (Prod.mk.inj same).1]
  exact (rowsBeforeEnd_append ended rest).symm

end TinyOlap.Execution
