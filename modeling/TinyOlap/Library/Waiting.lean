import TinyOlap.Library.Pipeline

/-!
# Workers that wait

A worker waits if it sends nothing before it has been told that there are no more works. An
operator on top of such a worker waits as well (`Waits.operator`), and so does one that makes its
items only at the end (`Waits.of_silent`). As long as they wait, the works can be handed out in any
way: of two workers the first can get the beginning of the works and the second the rest
(`exists_division`).
-/

set_option autoImplicit false

namespace TinyOlap.Library.WorkPool

variable {Work σ τ ι κ X : Type}

/-- The worker sends nothing before it has been told that there are no more works. -/
def Waits (act : σ → Act Work σ ι) (start : σ) (works : List Work) : Prop :=
  ∀ {n handed sent phase}, handed.Sublist works → Runs act start n handed false sent phase →
    sent ++ phase.pending = []

section Operators

variable {op : Operator X ι κ} {act : σ → Act Work σ ι} {start : σ} {works : List Work}
  {items : List Work → List ι} {base : Nat} {weight : Work → Nat} {wrap : X → σ → τ} {x₀ : X}
  {act' : τ → Act Work τ κ} {made : List Work → List κ}

/-- **An operator that makes nothing before the end waits**, if the worker below goes on to the
end of the works. -/
theorem Waits.of_silent (delivers : Delivers act start works items base weight)
    (makes : ∀ handed, handed.Sublist works → op.result x₀ (items handed) = some (made handed))
    (acts : ∀ x s, act' (wrap x s) = op.onTop (act s) wrap x s)
    (exhausts : Exhausts act start works)
    (silent : ∀ n handed pulled phase x out, handed.Sublist works →
      Runs act start n handed false pulled phase → op.feed x₀ pulled = some (x, out) → out = []) :
    Waits act' (wrap x₀ start) works := by
  intro n handed sent phase part runs
  cases follows_of_runs delivers (fun handed part => ⟨_, makes handed part⟩) acts part runs with
  | pulling below fed => simpa [Phase.pending] using silent _ _ _ _ _ _ part below fed
  | passing below fed => simpa using silent _ _ _ _ _ _ part below fed
  | stopped below fed _ => simpa [Phase.pending] using silent _ _ _ _ _ _ part below fed
  | closing below _ _ => cases exhausts part below
  | closed below _ _ => cases exhausts part below
  | ended below _ _ => cases exhausts part below

/-- **An operator on top of a worker that waits does so too.** -/
theorem Waits.operator (delivers : Delivers act start works items base weight)
    (makes : ∀ handed, handed.Sublist works → op.result x₀ (items handed) = some (made handed))
    (acts : ∀ x s, act' (wrap x s) = op.onTop (act s) wrap x s)
    (exhausts : Exhausts act start works) (waits : Waits act start works) :
    Waits act' (wrap x₀ start) works := by
  refine Waits.of_silent delivers makes acts exhausts ?_
  intro n handed pulled phase x out part runs fed
  rw [(List.append_eq_nil_iff.mp (waits part runs)).1] at fed
  cases fed
  rfl

/-- An operator that may stop goes on to the end of the works all the same, if it is open at the
start and the worker below waits. -/
theorem Exhausts.of_waits (delivers : Delivers act start works items base weight)
    (makes : ∀ handed, handed.Sublist works → op.result x₀ (items handed) = some (made handed))
    (acts : ∀ x s, act' (wrap x s) = op.onTop (act s) wrap x s)
    (exhausts : Exhausts act start works) (waits : Waits act start works)
    (going : op.gate x₀ = false) : Exhausts act' (wrap x₀ start) works := by
  intro n handed exhausted sent part runs
  cases follows_of_runs delivers (fun handed part => ⟨_, makes handed part⟩) acts part runs with
  | ended below _ _ => exact exhausts part below
  | stopped below fed gated =>
      cases exhausted with
      | true => rfl
      | false =>
          rw [(List.append_eq_nil_iff.mp (waits part below)).1] at fed
          cases fed
          rw [going] at gated
          cases gated

end Operators

/-! ## A division of the works -/

section Division

variable {act : σ → Act Work σ ι} {start : σ} {works : List Work} {result : List Work → List ι}
  {base : Nat} {weight : Work → Nat} {count capacity : Nat}

/-- **How works are divided**: the first worker gets the beginning of them, the second the rest,
and the others come too late. -/
def division {α : Type} (first second : List α) (w : Nat) : List α :=
  if w = 0 then first else if w = 1 then second else []

theorem ofWorker_division {α : Type} (first second : List α) (w : Nat) :
    ofWorker w ((first.map fun a => (0, a)) ++ second.map fun a => (1, a)) =
      division first second w := by
  rw [ofWorker_append, division]
  by_cases here : w = 0
  · rw [if_pos here, here, ofWorker_map_same, ofWorker_map_other Nat.one_ne_zero, List.append_nil]
  · rw [if_neg here, ofWorker_map_other (Ne.symm here), List.nil_append]
    by_cases next : w = 1
    · rw [if_pos next, next, ofWorker_map_same]
    · rw [if_neg next, ofWorker_map_other (Ne.symm next)]

theorem division_sublist {α : Type} (first second : List α) (w : Nat) :
    (division first second w).Sublist (first ++ second) := by
  rw [division]
  split
  · exact List.sublist_append_left _ _
  · split
    · exact List.sublist_append_right _ _
    · exact List.nil_sublist _

/-- Two workers that have been handed all works and have sent nothing explain a state. -/
theorem explained_division {n n' next : Nat} {first second : List Work} {s s' : σ}
    (workers : 1 < count) (split : works = first ++ second) (left : works.drop next = [])
    (runs : Runs act start n first false [] (.running s))
    (runs' : Runs act start n' second false [] (.running s')) :
    Explained act works (List.replicate count start)
      ((first.map fun work => (0, work)) ++ second.map fun work => (1, work))
      (fun w => if w = 0 then n else if w = 1 then n' else 0)
      ⟨works, next, ((List.replicate count (.running start)).set 0 (.running s)).set 1
        (.running s'), [], [], false⟩ where
  works_eq := rfl
  count_eq := by simp
  log_works := by
    rw [List.take_of_length_le (List.drop_eq_nil_iff.mp left), split]
    simp [Function.comp_def]
  log_workers entry member := by
    rw [List.length_replicate]
    rcases List.mem_append.mp member with here | there
    · obtain ⟨_, _, rfl⟩ := List.mem_map.mp here
      omega
    · obtain ⟨_, _, rfl⟩ := List.mem_map.mp there
      exact workers
  sent_workers := by simp
  runs w child phase isChild atWorker := by
    rw [(List.mem_replicate.mp (List.mem_of_getElem? isChild)).2]
    refine ⟨false, ?_, Bool.false_ne_true.elim⟩
    rw [ofWorker_division, division]
    by_cases here : w = 0
    · subst here
      rw [List.getElem?_set_ne Nat.one_ne_zero, List.getElem?_set_self (by simp; omega)]
        at atWorker
      cases atWorker
      exact runs
    · rw [if_neg here, if_neg here]
      by_cases next : w = 1
      · subst next
        rw [List.getElem?_set_self (by simpa using workers)] at atWorker
        cases atWorker
        exact runs'
      · rw [List.getElem?_set_ne (Ne.symm next), List.getElem?_set_ne (Ne.symm here)] at atWorker
        rw [if_neg next, if_neg next, (List.mem_replicate.mp (List.mem_of_getElem? atWorker)).2]
        exact .start

/-- A worker alone that waits asks for another work when it has been handed these. -/
theorem Waits.exists_asking (waits : Waits act start works)
    (delivers : Delivers act start works result base weight) (exhausts : Exhausts act start works)
    {share : List Work} (part : share.Sublist works) :
    ∃ n s, Runs act start n share false [] (.running s) := by
  obtain ⟨n, sent, s, _, runs, _⟩ := WorkPool.exists_asking (delivers.of_sublist part)
    fun inside runs => exhausts (inside.trans part) runs
  rw [(List.append_eq_nil_iff.mp (waits part runs)).1] at runs
  exact ⟨n, s, runs⟩

/-- **Two workers that wait can divide the works** in any place. -/
theorem exists_division (delivers : Delivers act start works result base weight)
    (exhausts : Exhausts act start works) (waits : Waits act start works) (room : 0 < capacity)
    (workers : 1 < count) {first second : List Work} (split : works = first ++ second) :
    ∃ events p, run act capacity (.init works count start) events = some p ∧ p.hungUp = true ∧
      (∀ entry ∈ p.received, entry.1 < count) ∧
      ∀ w < count, ofWorker w p.received = result (division first second w) := by
  obtain ⟨n, s, runs⟩ :=
    waits.exists_asking delivers exhausts (split ▸ List.sublist_append_left first second)
  obtain ⟨n', s', runs'⟩ :=
    waits.exists_asking delivers exhausts (split ▸ List.sublist_append_right first second)
  have inOrder : first ++ second ++ [] = works := by rw [List.append_nil, split]
  obtain ⟨events, next, left, ran⟩ := exists_run_of_two room workers runs runs' inOrder
  have divided := explained_division workers split left runs runs'
  obtain ⟨more, p, completed, hungUp⟩ := exists_completion delivers room ran
  have whole := completed
  rw [Pool.init_eq] at whole
  obtain ⟨empty, done⟩ := done_of_hungUp whole hungUp
  have later := completed
  rw [run_append, ran, Option.bind_some] at later
  obtain ⟨log, turns, explained, begins⟩ := divided.run later
  -- all works have been handed out before, so nothing comes later
  have same : (first.map fun work => (0, work)) ++ (second.map fun work => (1, work)) = log := by
    refine begins.eq_of_length_le ?_
    have handed := congrArg List.length explained.log_works
    rw [List.length_map, List.length_take, split] at handed
    rw [handed]
    simp
  subst same
  refine ⟨events ++ more, p, completed, hungUp, ?_, fun w inside => ?_⟩
  · simpa [empty] using explained.sent_workers
  · obtain ⟨turns, exhausted, phase, _, ended, runs, _⟩ :=
      explained.ended empty done (List.getElem?_replicate_of_lt inside)
    rcases ended with rfl | rfl
    · rw [delivers.complete (explained.handed_sublist w) runs, ofWorker_division]
    · exact (delivers.safe (explained.handed_sublist w) runs).elim

end Division

end TinyOlap.Library.WorkPool
