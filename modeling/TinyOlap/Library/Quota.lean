import Mathlib.Algebra.BigOperators.Ring.Finset
import TinyOlap.Library.Pipeline

/-!
# Workers that stop at a quota

Every work amounts to something, and so does every item. A worker sends what its works amount
to, up to a limit, and stops by itself as soon as it has reached the limit. A single worker
of this kind sends what all works amount to, up to the limit. Copies of it over one list of
works have a limit each: together they send at least as much (`le_received`), and at most the
limit for each copy, and for each work that amounts to something (`received_le`). These bounds
decide when all schedules send the same (`received_iff`).
-/

set_option autoImplicit false

namespace TinyOlap.Library.WorkPool

variable {Work σ ι α : Type}

/-! ## Sums over the workers -/

/-- A sum over entries, worker by worker. -/
theorem sum_by_worker {count : Nat} {entries : List (Nat × α)}
    (tags : ∀ entry ∈ entries, entry.1 < count) (f : α → Nat) :
    ((entries.map Prod.snd).map f).sum =
      ∑ w ∈ Finset.range count, ((ofWorker w entries).map f).sum := by
  have grouped := ((perm_flatMap_ofWorker tags).map f).sum_eq
  rw [List.map_flatMap, List.flatMap, List.sum_flatten, List.map_map (g := List.sum)] at grouped
  exact grouped

/-- Entries are counted, worker by worker. -/
theorem countP_by_worker {count : Nat} {entries : List (Nat × α)}
    (tags : ∀ entry ∈ entries, entry.1 < count) (p : α → Bool) :
    (entries.map Prod.snd).countP p =
      ∑ w ∈ Finset.range count, (ofWorker w entries).countP p := by
  rw [(perm_flatMap_ofWorker tags).countP_eq, List.countP_flatMap]
  rfl

/-- A minimum with a sum is at most the sum of the minima. -/
theorem min_sum_le_sum_min (limit : Nat) (s : Finset Nat) (f : Nat → Nat) :
    min limit (∑ w ∈ s, f w) ≤ ∑ w ∈ s, min limit (f w) := by
  induction s using Finset.induction_on with
  | empty => exact Nat.min_le_right _ _
  | insert w s fresh ih =>
      rw [Finset.sum_insert fresh, Finset.sum_insert fresh]
      omega

/-- Works that amount to something are needed to reach a limit. -/
theorem min_sum_le_countP (limit : Nat) (amount : Work → Nat) (share : List Work) :
    min limit (share.map amount).sum ≤ limit * share.countP fun work => 0 < amount work := by
  rcases Nat.eq_zero_or_pos (share.countP fun work => 0 < amount work) with zero | some
  · have none : (share.map amount).sum = 0 := by
      refine List.sum_eq_zero fun n member => ?_
      obtain ⟨work, inside, rfl⟩ := List.mem_map.mp member
      have idle := List.countP_eq_zero.mp zero work inside
      simpa using idle
    rw [none, Nat.min_zero]
    exact Nat.zero_le _
  · exact (Nat.min_le_left _ _).trans (Nat.le_mul_of_pos_right limit some)

/-! ## A worker with a limit -/

/-- **A worker with a limit.** What it sends amounts to what it was handed, up to the limit;
it stops without having been told that there are no more works only at the limit, and stops
when it is told so. -/
structure Capped (act : σ → Act Work σ ι) (start : σ) (works : List Work)
    (result : List Work → List ι) (limit : Nat) (size : ι → Nat) (amount : Work → Nat) :
    Prop where
  sizes : ∀ handed, handed.Sublist works →
    ((result handed).map size).sum = min limit (handed.map amount).sum
  sated : ∀ {n handed sent}, handed.Sublist works →
    Runs act start n handed false sent .finished → limit ≤ (sent.map size).sum
  quits : ∀ {n handed exhausted sent s k}, handed.Sublist works →
    Runs act start n handed exhausted sent (.running s) → act s = .nextWork k →
      ∃ s', k none = .ret none s'

section Pool

variable {act : σ → Act Work σ ι} {start : σ} {works : List Work} {result : List Work → List ι}
  {base : Nat} {weight : Work → Nat} {limit count capacity : Nat} {size : ι → Nat}
  {amount : Work → Nat} {events : List Event} {p : Pool Work σ ι}

/-- What the consumer has received amounts to. -/
def Pool.receivedSize (size : ι → Nat) (p : Pool Work σ ι) : Nat :=
  ((p.received.map Prod.snd).map size).sum

/-- The end of a pool of workers with a limit: each has sent what its share amounts to, up to
the limit, and all works have been handed out unless every worker has reached it. -/
theorem Capped.shares (capped : Capped act start works result limit size amount)
    (delivers : Delivers act start works result base weight)
    (ran : run act capacity (.init works count start) events = some p)
    (hungUp : p.hungUp = true) :
    ∃ log : List (Nat × Work), log.map Prod.snd <+: works ∧ (∀ entry ∈ log, entry.1 < count) ∧
      p.receivedSize size =
        ∑ w ∈ Finset.range count, min limit ((ofWorker w log).map amount).sum ∧
      (log.map Prod.snd = works ∨
        ∀ w < count, limit ≤ ((ofWorker w log).map amount).sum) := by
  obtain ⟨log, logWorks, logWorkers, sentWorkers, share, fate⟩ :=
    finished_of_hungUp delivers ran hungUp
  have each : ∀ w < count, ((ofWorker w p.received).map size).sum =
      min limit ((ofWorker w log).map amount).sum := by
    intro w inside
    obtain ⟨turns, exhausted, runs, _⟩ := fate w inside
    rw [delivers.complete (share w) runs, capped.sizes _ (share w)]
  refine ⟨log, logWorks ▸ List.take_prefix _ _, logWorkers, ?_, ?_⟩
  · rw [Pool.receivedSize, sum_by_worker sentWorkers]
    exact Finset.sum_congr rfl fun w member => each w (Finset.mem_range.mp member)
  · by_cases all : works.length ≤ p.next
    · exact .inl (by rw [logWorks, List.take_of_length_le all])
    · refine .inr fun w inside => ?_
      obtain ⟨turns, exhausted, runs, told⟩ := fate w inside
      cases exhausted with
      | true => exact (all (told rfl)).elim
      | false =>
          have enough := capped.sated (share w) runs
          rw [each w inside] at enough
          exact enough.trans (Nat.min_le_right _ _)

/-- **Not less than one worker sends.** -/
theorem Capped.le_received (capped : Capped act start works result limit size amount)
    (delivers : Delivers act start works result base weight) (workers : 0 < count)
    (ran : run act capacity (.init works count start) events = some p)
    (hungUp : p.hungUp = true) :
    min limit (works.map amount).sum ≤ p.receivedSize size := by
  obtain ⟨log, _, logWorkers, received, all | enough⟩ := capped.shares delivers ran hungUp
  · rw [received, ← all, sum_by_worker logWorkers]
    exact min_sum_le_sum_min _ _ _
  · have first := Finset.single_le_sum
      (f := fun w => min limit ((ofWorker w log).map amount).sum) (fun _ _ => Nat.zero_le _)
      (Finset.mem_range.mpr workers)
    rw [received]
    exact ((Nat.min_le_left _ _).trans (Nat.le_min.mpr ⟨le_rfl, enough 0 workers⟩)).trans first

/-- **Not more than all works amount to, than the limit for each worker, and than the limit for
each work that amounts to something.** -/
theorem Capped.received_le (capped : Capped act start works result limit size amount)
    (delivers : Delivers act start works result base weight)
    (ran : run act capacity (.init works count start) events = some p)
    (hungUp : p.hungUp = true) :
    p.receivedSize size ≤ (works.map amount).sum ∧ p.receivedSize size ≤ limit * count ∧
      p.receivedSize size ≤ limit * works.countP fun work => 0 < amount work := by
  obtain ⟨log, part, logWorkers, received, _⟩ := capped.shares delivers ran hungUp
  refine ⟨?_, ?_, ?_⟩
  · calc p.receivedSize size
        ≤ ∑ w ∈ Finset.range count, ((ofWorker w log).map amount).sum :=
          received ▸ Finset.sum_le_sum fun w _ => Nat.min_le_right _ _
      _ = ((log.map Prod.snd).map amount).sum := (sum_by_worker logWorkers amount).symm
      _ ≤ (works.map amount).sum :=
          (part.sublist.map amount).sum_le_sum fun _ _ => Nat.zero_le _
  · calc p.receivedSize size
        ≤ ∑ _w ∈ Finset.range count, limit :=
          received ▸ Finset.sum_le_sum fun w _ => Nat.min_le_left _ _
      _ = limit * count := by rw [Finset.sum_const, Finset.card_range, smul_eq_mul, Nat.mul_comm]
  · calc p.receivedSize size
        ≤ ∑ w ∈ Finset.range count,
            limit * (ofWorker w log).countP fun work => 0 < amount work :=
          received ▸ Finset.sum_le_sum fun w _ => min_sum_le_countP _ _ _
      _ = limit * (log.map Prod.snd).countP fun work => 0 < amount work := by
          rw [countP_by_worker logWorkers, Finset.mul_sum]
      _ ≤ limit * works.countP fun work => 0 < amount work :=
          Nat.mul_le_mul_left limit (part.sublist.countP_le)

/-! ## A schedule that sends more -/

/-- A worker alone that is handed works until it stops or asks for more: it has sent what these
amount to, and if they are not all, it has reached the limit. -/
theorem Capped.exists_sent (capped : Capped act start works result limit size amount)
    (delivers : Delivers act start works result base weight) {share : List Work}
    (part : share.Sublist works) :
    ∃ n handed sent phase, handed <+: share ∧ Runs act start n handed false sent phase ∧
      (sent.map size).sum = min limit (handed.map amount).sum ∧
      (handed = share ∨ limit ≤ (handed.map amount).sum) := by
  obtain ⟨n, handed, sent, phase, begins, runs, stops⟩ := exists_stop (delivers.of_sublist part)
  have inside := begins.sublist.trans part
  rcases stops with rfl | ⟨rfl, s, k, rfl, asks⟩
  · have whole := delivers.complete inside runs
    have enough := capped.sated inside runs
    rw [whole, capped.sizes _ inside] at enough
    exact ⟨n, handed, sent, _, begins, runs, by rw [whole, capped.sizes _ inside],
      .inr (enough.trans (Nat.min_le_right _ _))⟩
  · -- told that there are no more works, it would end without another item
    obtain ⟨s', ends⟩ := capped.quits inside runs asks
    have ended := runs.exhausted asks
    rw [ends] at ended
    exact ⟨n, handed, sent, _, begins, runs,
      by rw [delivers.complete inside ended, capped.sizes _ inside], .inl rfl⟩

/-- The first of two works that amount to something. -/
theorem exists_first {amount : Work → Nat} {works : List Work}
    (two : 1 < works.countP fun work => 0 < amount work) :
    ∃ before work after, works = before ++ work :: after ∧ (before.map amount).sum = 0 ∧
      0 < amount work ∧ 0 < (after.map amount).sum := by
  obtain ⟨first, found⟩ : ∃ first, works.find? (fun work => 0 < amount work) = some first := by
    rw [← Option.isSome_iff_exists, List.find?_isSome]
    obtain ⟨work, inside, some⟩ := List.countP_pos_iff.mp (Nat.zero_lt_of_lt two)
    exact ⟨work, inside, some⟩
  obtain ⟨some, before, after, rfl, idle⟩ := List.find?_eq_some_iff_append.mp found
  have nothing : ∀ work ∈ before, amount work = 0 := fun work member => by
    simpa using idle work member
  have none : (before.map amount).sum = 0 := by
    refine List.sum_eq_zero fun n member => ?_
    obtain ⟨work, inside, rfl⟩ := List.mem_map.mp member
    exact nothing work inside
  refine ⟨before, first, after, rfl, none, by simpa using some, ?_⟩
  have idleBefore : (before.countP fun work => 0 < amount work) = 0 :=
    List.countP_eq_zero.mpr fun work member => by simp [nothing work member]
  rw [List.countP_append, idleBefore,
    List.countP_cons_of_pos (p := fun work => decide (0 < amount work)) some] at two
  obtain ⟨work, inside, some⟩ := List.countP_pos_iff.mp (by omega :
    0 < after.countP fun work => 0 < amount work)
  exact (by simpa using some : 0 < amount work).trans_le
    (List.le_sum_of_mem (List.mem_map_of_mem inside))

/-- **Two workers can send more than the limit**: the first of them is handed the works up to the
first that amounts to something, and the second the others. -/
theorem Capped.exists_more (capped : Capped act start works result limit size amount)
    (delivers : Delivers act start works result base weight) (room : 0 < capacity)
    (positive : 0 < limit) (more : limit < (works.map amount).sum) (workers : 1 < count)
    (two : 1 < works.countP fun work => 0 < amount work) :
    ∃ events p, run act capacity (.init works count start) events = some p ∧ p.hungUp = true ∧
      limit < p.receivedSize size := by
  obtain ⟨before, work, after, rfl, none, first, later⟩ := exists_first two
  have split : before ++ work :: after = (before ++ [work]) ++ after := by simp
  obtain ⟨n, handed, sent, phase, begins, runs, sends, all⟩ := capped.exists_sent delivers
    (split ▸ List.sublist_append_left _ _ : (before ++ [work]).Sublist _)
  obtain ⟨n', handed', sent', phase', begins', runs', sends', all'⟩ := capped.exists_sent delivers
    (split ▸ List.sublist_append_right _ _ : after.Sublist _)
  -- below the limit the first worker does not stop before it has been handed this work
  have whole : handed = before ++ [work] := by
    rcases List.prefix_concat_iff.mp begins with same | short
    · exact same
    · have less := (short.sublist.map amount).sum_le_sum fun _ _ => Nat.zero_le _
      rcases all with same | enough
      · exact same
      · omega
  subst whole
  obtain ⟨left, front⟩ : (before ++ [work]) ++ handed' <+: before ++ work :: after :=
    split ▸ (List.prefix_append_right_inj _).mpr begins'
  obtain ⟨events, next, _, ran⟩ := exists_run_of_two room workers runs runs' front
  obtain ⟨rest, p', completed, ended⟩ := exists_completion delivers room ran
  refine ⟨_, p', completed, ended, ?_⟩
  rw [run_append, ran, Option.bind_some] at completed
  have arrived := ((received_prefix_of_run completed).sublist.map Prod.snd).map size
  have total := arrived.sum_le_sum fun _ _ => Nat.zero_le _
  have received : ((sent.map fun item => (0, item)) ++ sent'.map fun item => (1, item)).map
      Prod.snd = sent ++ sent' := by simp [Function.comp_def]
  rw [received, List.map_append, List.sum_append, sends, sends'] at total
  refine Nat.lt_of_lt_of_le ?_ total
  simp only [List.map_append, List.map_cons, List.map_nil, List.sum_append, List.sum_cons,
    List.sum_nil] at more ⊢
  rcases all' with same | enough
  · rw [same]
    omega
  · omega

/-- **When all schedules agree.** All workers together send what one worker sends, under every
schedule, if and only if the limit is zero or is not exceeded, or there is one worker or
one work that amounts to something. -/
theorem Capped.received_iff (capped : Capped act start works result limit size amount)
    (delivers : Delivers act start works result base weight) (room : 0 < capacity)
    (workers : 0 < count) :
    (∀ events p, run act capacity (.init works count start) events = some p → p.hungUp = true →
      p.receivedSize size = min limit (works.map amount).sum) ↔
    limit = 0 ∨ (works.map amount).sum ≤ limit ∨ count = 1 ∨
      (works.countP fun work => 0 < amount work) ≤ 1 := by
  constructor
  · intro same
    by_contra none
    simp only [not_or, Nat.not_le] at none
    obtain ⟨positive, more, several, two⟩ := none
    have several : 1 < count := by omega
    obtain ⟨events, p, ran, hungUp, exceeds⟩ := capped.exists_more delivers room
      (Nat.pos_of_ne_zero positive) more several two
    have exact := same events p ran hungUp
    omega
  · intro condition events p ran hungUp
    have least := capped.le_received delivers workers ran hungUp
    obtain ⟨total, each, some⟩ := capped.received_le delivers ran hungUp
    refine Nat.le_antisymm (Nat.le_min.mpr ⟨?_, total⟩) least
    rcases condition with rfl | short | rfl | one
    · simpa using each
    · exact total.trans short
    · simpa using each
    · exact some.trans ((Nat.mul_le_mul_left limit one).trans (Nat.mul_one limit).le)

end Pool

end TinyOlap.Library.WorkPool
