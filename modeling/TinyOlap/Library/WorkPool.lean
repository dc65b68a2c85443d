import Mathlib.Algebra.Group.Action.Defs
import Mathlib.Data.List.Perm.Basic
import Mathlib.Algebra.BigOperators.Group.Finset.Piecewise
import Mathlib.Algebra.Order.BigOperators.Group.Finset
import Mathlib.Algebra.Order.Ring.Nat
import TinyOlap.Library.Lists

/-!
# Workers over a shared list of works

A pool has a list of works behind a counter, some copies of one worker, and a channel
of bounded length to a consumer. A worker asks for the next work, which advances the
counter in one step with reading it, or computes on its own, and now and then has an
item to send. It is done when it returns none, or crashes. The consumer receives the
items in the order of the channel and learns that there are no more when the channel
is empty and all workers are done.

What a pool does in any interleaving is reduced to what one worker does alone
(`Runs`): in every reachable state there is a division of the works handed out so far
among the workers, such that each worker has sent what it sends alone on its share
(`Explained`). If the items of a worker come from its works one by one, the consumer
therefore receives the items of all works (`received_perm_of_hungUp`), each worker's in order.
Runs of bounded workers are bounded too, and never get stuck.
-/

set_option autoImplicit false

namespace TinyOlap.Library.WorkPool

variable {Work σ ι : Type}

/-! ## Workers -/

/-- How a turn of a worker ends. -/
inductive Turn (σ ι : Type) where
  /-- The call goes on. -/
  | again (s : σ)
  /-- The call returns an item, or none at the end. -/
  | ret (item : Option ι) (s : σ)
  | panic

/-- What a worker does in a turn. -/
inductive Act (Work σ ι : Type) where
  | turn (t : Turn σ ι)
  /-- Ask for the next work, if there is one. -/
  | nextWork (k : Option Work → Turn σ ι)

/-- The turn a worker takes if it is told so of the next work. -/
def Act.answer : Act Work σ ι → Option Work → Turn σ ι
  | turn t, _ => t
  | nextWork k, work => k work

/-- Where a worker is. -/
inductive Phase (σ ι : Type) where
  | running (s : σ)
  | sending (item : ι) (s : σ)
  | finished
  | crashed

namespace Phase

/-- The worker's thread has ended. -/
def isDone : Phase σ ι → Bool
  | finished | crashed => true
  | _ => false

end Phase

/-- The state of a worker that goes on. -/
def Phase.worker : Phase σ ι → Option σ
  | running s | sending _ s => some s
  | finished | crashed => none

/-- Where a turn leaves its worker. -/
def Turn.phase : Turn σ ι → Phase σ ι
  | again s => .running s
  | ret (some item) s => .sending item s
  | ret none _ => .finished
  | panic => .crashed

/-- **A worker alone.** After so many turns it has been handed these works, has been told
or not that there are no more, and has sent these items. -/
inductive Runs (act : σ → Act Work σ ι) (start : σ) :
    Nat → List Work → Bool → List ι → Phase σ ι → Prop where
  | start : Runs act start 0 [] false [] (.running start)
  | turn {n : Nat} {handed : List Work} {exhausted : Bool} {sent : List ι} {s : σ} {t : Turn σ ι}
      (before : Runs act start n handed exhausted sent (.running s)) (acts : act s = .turn t) :
      Runs act start (n + 1) handed exhausted sent t.phase
  | handed {n : Nat} {handed : List Work} {sent : List ι} {s : σ} {k : Option Work → Turn σ ι}
      (before : Runs act start n handed false sent (.running s)) (acts : act s = .nextWork k)
      (work : Work) :
      Runs act start (n + 1) (handed ++ [work]) false sent (k (some work)).phase
  | exhausted {n : Nat} {handed : List Work} {exhausted : Bool} {sent : List ι} {s : σ}
      {k : Option Work → Turn σ ι}
      (before : Runs act start n handed exhausted sent (.running s)) (acts : act s = .nextWork k) :
      Runs act start (n + 1) handed true sent (k none).phase
  | sent {n : Nat} {handed : List Work} {exhausted : Bool} {sent : List ι} {item : ι} {s : σ}
      (before : Runs act start n handed exhausted sent (.sending item s)) :
      Runs act start n handed exhausted (sent ++ [item]) (.running s)

/-- The item a worker is about to send. -/
def Phase.pending : Phase σ ι → List ι
  | sending item _ => [item]
  | _ => []

/-- Every item that is sent, or about to be, took a turn. -/
theorem Runs.sent_length_le {act : σ → Act Work σ ι} {start : σ} {n : Nat} {handed : List Work}
    {exhausted : Bool} {sent : List ι} {phase : Phase σ ι}
    (runs : Runs act start n handed exhausted sent phase) :
    sent.length + phase.pending.length ≤ n := by
  have atMostOne : ∀ t : Turn σ ι, t.phase.pending.length ≤ 1 := by
    intro t
    match t with
    | .again _ | .ret none _ | .panic => exact Nat.zero_le 1
    | .ret (some _) _ => exact Nat.le_refl 1
  induction runs with
  | start => exact Nat.le_refl 0
  | turn _ _ ih =>
      simp only [Phase.pending, List.length_nil, Nat.add_zero] at ih
      exact Nat.add_le_add ih (atMostOne _)
  | handed _ _ _ ih =>
      simp only [Phase.pending, List.length_nil, Nat.add_zero] at ih
      exact Nat.add_le_add ih (atMostOne _)
  | exhausted _ _ ih =>
      simp only [Phase.pending, List.length_nil, Nat.add_zero] at ih
      exact Nat.add_le_add ih (atMostOne _)
  | sent _ ih => simpa [Phase.pending] using ih

/-- **What a worker delivers** of works from a list: it never crashes, what it has sent is
always the beginning of its result on the works it was handed, and all of it when it
is finished. The number of its turns is bounded. -/
structure Delivers (act : σ → Act Work σ ι) (start : σ) (works : List Work)
    (result : List Work → List ι) (base : Nat) (weight : Work → Nat) : Prop where
  safe : ∀ {n handed exhausted sent}, handed.Sublist works →
    ¬ Runs act start n handed exhausted sent .crashed
  begun : ∀ {n handed exhausted sent phase}, handed.Sublist works →
    Runs act start n handed exhausted sent phase → sent ++ phase.pending <+: result handed
  complete : ∀ {n handed exhausted sent}, handed.Sublist works →
    Runs act start n handed exhausted sent .finished → sent = result handed
  bounded : ∀ {n handed exhausted sent phase}, handed.Sublist works →
    Runs act start n handed exhausted sent phase → n ≤ base + (handed.map weight).sum

/-- The worker finishes only when it has been told that there are no more works. -/
def Exhausts (act : σ → Act Work σ ι) (start : σ) (works : List Work) : Prop :=
  ∀ {n handed exhausted sent}, handed.Sublist works →
    Runs act start n handed exhausted sent .finished → exhausted = true

/-- What a worker delivers, told in another way. -/
theorem Delivers.congr {act : σ → Act Work σ ι} {start : σ} {works : List Work}
    {result result' : List Work → List ι} {base : Nat} {weight : Work → Nat}
    (delivers : Delivers act start works result base weight)
    (same : ∀ handed, handed.Sublist works → result handed = result' handed) :
    Delivers act start works result' base weight where
  safe := delivers.safe
  begun part runs := same _ part ▸ delivers.begun part runs
  complete part runs := same _ part ▸ delivers.complete part runs
  bounded := delivers.bounded

/-- It delivers as much of a part of the works. -/
theorem Delivers.of_sublist {act : σ → Act Work σ ι} {start : σ} {works share : List Work}
    {result : List Work → List ι} {base : Nat} {weight : Work → Nat}
    (delivers : Delivers act start works result base weight) (part : share.Sublist works) :
    Delivers act start share result base weight where
  safe inside := delivers.safe (inside.trans part)
  begun inside := delivers.begun (inside.trans part)
  complete inside := delivers.complete (inside.trans part)
  bounded inside := delivers.bounded (inside.trans part)

/-! ## The pool -/

structure Pool (Work σ ι : Type) where
  works : List Work
  next : Nat
  workers : List (Phase σ ι)
  /-- The items in flight, with the worker each comes from. -/
  channel : List (Nat × ι)
  received : List (Nat × ι)
  /-- The consumer has learned that there are no more items. -/
  hungUp : Bool

/-- The pool at the start. -/
def Pool.ofChildren (works : List Work) (children : List σ) : Pool Work σ ι :=
  ⟨works, 0, children.map .running, [], [], false⟩

/-- The pool at the start, with copies of one worker. -/
def Pool.init (works : List Work) (count : Nat) (start : σ) : Pool Work σ ι :=
  ⟨works, 0, List.replicate count (.running start), [], [], false⟩

theorem Pool.init_eq (works : List Work) (count : Nat) (start : σ) :
    (Pool.init works count start : Pool Work σ ι) =
      .ofChildren works (List.replicate count start) := by
  rw [init, ofChildren, List.map_replicate]

inductive Event where
  | work (worker : Nat)
  | send (worker : Nat)
  | receive
  | disconnect
deriving DecidableEq, Repr

section Step

variable (act : σ → Act Work σ ι) (capacity : Nat)

/-- One event, if it can happen. -/
def step (p : Pool Work σ ι) : Event → Option (Pool Work σ ι)
  | .work w =>
      match p.workers[w]? with
      | some (.running s) =>
          match act s with
          | .turn t => some { p with workers := p.workers.set w t.phase }
          | .nextWork k =>
              some { p with
                next := p.next + 1
                workers := p.workers.set w (k p.works[p.next]?).phase }
      | _ => none
  | .send w =>
      match p.workers[w]? with
      | some (.sending item s) =>
          if p.channel.length < capacity then
            some { p with
              channel := p.channel ++ [(w, item)]
              workers := p.workers.set w (.running s) }
          else none
      | _ => none
  | .receive =>
      match p.channel with
      | entry :: rest => some { p with channel := rest, received := p.received ++ [entry] }
      | [] => none
  | .disconnect =>
      if p.channel.isEmpty ∧ p.workers.all Phase.isDone ∧ p.hungUp = false then
        some { p with hungUp := true }
      else none

/-- A schedule, event by event. -/
def run (p : Pool Work σ ι) : List Event → Option (Pool Work σ ι)
  | [] => some p
  | event :: rest => (step act capacity p event).bind fun p => run p rest

end Step

variable {act : σ → Act Work σ ι} {capacity : Nat}

theorem run_append (p : Pool Work σ ι) (first second : List Event) :
    run act capacity p (first ++ second) =
      (run act capacity p first).bind fun p => run act capacity p second := by
  induction first generalizing p with
  | nil => rfl
  | cons event rest ih =>
      simp only [List.cons_append, run]
      cases step act capacity p event with
      | none => rfl
      | some p' => exact ih p'

/-- All that an event can be. -/
theorem step_cases {p p' : Pool Work σ ι} {event : Event}
    (steps : step act capacity p event = some p') :
    (∃ w s t, event = .work w ∧ p.workers[w]? = some (.running s) ∧ act s = .turn t ∧
      p' = { p with workers := p.workers.set w t.phase }) ∨
    (∃ w s k, event = .work w ∧ p.workers[w]? = some (.running s) ∧ act s = .nextWork k ∧
      p' = { p with
        next := p.next + 1
        workers := p.workers.set w (k p.works[p.next]?).phase }) ∨
    (∃ w item s, event = .send w ∧ p.workers[w]? = some (.sending item s) ∧
      p' = { p with
        channel := p.channel ++ [(w, item)]
        workers := p.workers.set w (.running s) }) ∨
    (∃ entry rest, event = .receive ∧ p.channel = entry :: rest ∧
      p' = { p with channel := rest, received := p.received ++ [entry] }) ∨
    (event = .disconnect ∧ p.channel = [] ∧ (∀ phase ∈ p.workers, phase.isDone = true) ∧
      p.hungUp = false ∧ p' = { p with hungUp := true }) := by
  cases event with
  | work w =>
      simp only [step] at steps
      split at steps
      · rename_i s running
        split at steps
        · exact .inl ⟨w, s, _, rfl, running, ‹_›, (Option.some.inj steps).symm⟩
        · exact .inr (.inl ⟨w, s, _, rfl, running, ‹_›, (Option.some.inj steps).symm⟩)
      · cases steps
  | send w =>
      simp only [step] at steps
      split at steps
      · rename_i item s sending
        split at steps
        · exact .inr (.inr (.inl ⟨w, item, s, rfl, sending, (Option.some.inj steps).symm⟩))
        · cases steps
      · cases steps
  | receive =>
      simp only [step] at steps
      split at steps
      · exact .inr (.inr (.inr (.inl ⟨_, _, rfl, ‹_›, (Option.some.inj steps).symm⟩)))
      · cases steps
  | disconnect =>
      simp only [step] at steps
      split at steps
      · rename_i ended
        exact .inr (.inr (.inr (.inr ⟨rfl, by simpa using ended.1, by simpa using ended.2.1,
          ended.2.2, (Option.some.inj steps).symm⟩)))
      · cases steps

/-- Induction along a schedule. -/
theorem run_induction {motive : List Event → Pool Work σ ι → Prop} {p : Pool Work σ ι}
    (start : motive [] p)
    (step : ∀ events before event after, motive events before →
      step act capacity before event = some after → motive (events ++ [event]) after)
    {events : List Event} {p' : Pool Work σ ι} (ran : run act capacity p events = some p') :
    motive events p' := by
  induction events using List.reverseRecOn generalizing p' with
  | nil =>
      cases ran
      exact start
  | append_singleton events event ih =>
      rw [run_append] at ran
      obtain ⟨before, reached, last⟩ := Option.bind_eq_some_iff.mp ran
      obtain ⟨after, stepped, last⟩ := Option.bind_eq_some_iff.mp last
      cases last
      exact step events before event _ (ih reached) stepped

/-! ## Entries of one worker -/

section Tagged

variable {α β : Type}

/-- The entries of one worker. -/
def ofWorker (w : Nat) (entries : List (Nat × α)) : List α :=
  (entries.filter fun entry => entry.1 == w).map Prod.snd

@[simp] theorem ofWorker_nil (w : Nat) : ofWorker w ([] : List (Nat × α)) = [] := rfl

theorem ofWorker_append (w : Nat) (first second : List (Nat × α)) :
    ofWorker w (first ++ second) = ofWorker w first ++ ofWorker w second := by
  simp [ofWorker]

@[simp] theorem ofWorker_same (w : Nat) (a : α) : ofWorker w [(w, a)] = [a] := by
  simp [ofWorker]

theorem ofWorker_other {v w : Nat} (differ : v ≠ w) (a : α) : ofWorker w [(v, a)] = [] := by
  simp [ofWorker, differ]

theorem ofWorker_map_same (w : Nat) (entries : List α) :
    ofWorker w (entries.map fun a => (w, a)) = entries := by
  rw [ofWorker, List.filter_map, List.filter_eq_self.mpr (by simp), List.map_map]
  exact List.map_id _

theorem ofWorker_map_other {v w : Nat} (differ : v ≠ w) (entries : List α) :
    ofWorker w (entries.map fun a => (v, a)) = [] := by
  simp [ofWorker, differ]

theorem ofWorker_sublist (w : Nat) (entries : List (Nat × α)) :
    (ofWorker w entries).Sublist (entries.map Prod.snd) :=
  List.filter_sublist.map _

/-- Entries are grouped by their workers. -/
theorem perm_flatMap_ofWorker {count : Nat} {entries : List (Nat × α)}
    (tags : ∀ entry ∈ entries, entry.1 < count) :
    (entries.map Prod.snd).Perm ((List.range count).flatMap fun w => ofWorker w entries) := by
  have upTo : ∀ m, ((entries.filter fun entry => entry.1 < m).map Prod.snd).Perm
      ((List.range m).flatMap fun w => ofWorker w entries) := by
    intro m
    induction m with
    | zero => simp
    | succ m ih =>
        rw [List.range_succ, List.flatMap_append, List.flatMap_singleton]
        have below : (entries.filter fun entry => entry.1 < m + 1).filter
            (fun entry => entry.1 < m) = entries.filter fun entry => entry.1 < m := by
          rw [List.filter_filter]
          exact List.filter_congr fun entry _ => by
            rw [← Bool.decide_and]
            exact decide_eq_decide.mpr ⟨And.left, fun less => ⟨less, Nat.lt_succ_of_lt less⟩⟩
        have here : (entries.filter fun entry => entry.1 < m + 1).filter
            (fun entry => !decide (entry.1 < m)) = entries.filter fun entry => entry.1 == m := by
          rw [List.filter_filter]
          exact List.filter_congr fun entry _ => by
            rw [Bool.eq_iff_iff]
            simp only [Bool.and_eq_true, Bool.not_eq_true', decide_eq_false_iff_not,
              decide_eq_true_eq, beq_iff_eq]
            omega
        have split := (List.filter_append_perm (fun entry => decide (entry.1 < m))
          (entries.filter fun entry => entry.1 < m + 1)).symm.map Prod.snd
        rw [below, here, List.map_append] at split
        exact split.trans (ih.append_right _)
  have all : (entries.filter fun entry => entry.1 < count) = entries :=
    List.filter_eq_self.mpr fun entry member => by simpa using tags entry member
  simpa only [all] using upTo count

end Tagged

/-! ## What a pool does -/

/-- A state explained by runs of the workers: `log` tells which worker got which work,
and `turns` how many turns each worker had. -/
structure Explained (act : σ → Act Work σ ι) (works : List Work) (children : List σ)
    (log : List (Nat × Work)) (turns : Nat → Nat) (p : Pool Work σ ι) : Prop where
  works_eq : p.works = works
  count_eq : p.workers.length = children.length
  log_works : log.map Prod.snd = works.take p.next
  log_workers : ∀ entry ∈ log, entry.1 < children.length
  sent_workers : ∀ entry ∈ p.received ++ p.channel, entry.1 < children.length
  runs : ∀ w child phase, children[w]? = some child → p.workers[w]? = some phase → ∃ exhausted,
    Runs act child (turns w) (ofWorker w log) exhausted (ofWorker w (p.received ++ p.channel))
      phase ∧ (exhausted = true → works.length ≤ p.next)

namespace Explained

variable {works : List Work} {children : List σ} {log : List (Nat × Work)} {turns : Nat → Nat}
  {p : Pool Work σ ι}

theorem ofChildren : Explained act works children [] (fun _ => 0)
    (Pool.ofChildren works children : Pool Work σ ι) where
  works_eq := rfl
  count_eq := List.length_map _
  log_works := rfl
  log_workers := by simp
  sent_workers := by simp [Pool.ofChildren]
  runs w child phase isChild atWorker := by
    have same : phase = .running child := by
      simpa [Pool.ofChildren, isChild, eq_comm] using atWorker
    exact ⟨false, by subst same; exact .start, by simp⟩

/-- What a worker was handed is a part of the works, in their order. -/
theorem handed_sublist (explained : Explained act works children log turns p) (w : Nat) :
    (ofWorker w log).Sublist works :=
  (ofWorker_sublist w log).trans (explained.log_works ▸ List.take_sublist _ _)

/-- **Every event is explained.** It is a turn of one worker, or moves an item. No work that has
been handed out goes to another worker. -/
theorem step (explained : Explained act works children log turns p) {p' : Pool Work σ ι}
    {event : Event} (steps : step act capacity p event = some p') :
    ∃ log' turns', Explained act works children log' turns' p' ∧ log <+: log' ∧
      ∀ v, turns' v = turns v + if event = .work v then 1 else 0 := by
  obtain ⟨worksEq, countEq, logWorks, logWorkers, sentWorkers, runs⟩ := explained
  rcases step_cases steps with ⟨w, s, t, rfl, running, acts, rfl⟩ |
    ⟨w, s, k, rfl, running, acts, rfl⟩ | ⟨w, item, s, rfl, sending, rfl⟩ |
    ⟨entry, rest, rfl, channel, rfl⟩ | ⟨rfl, _, _, _, rfl⟩
  · refine ⟨log, fun v => turns v + if Event.work w = .work v then 1 else 0,
      ⟨worksEq, by simpa using countEq, logWorks, logWorkers, sentWorkers, ?_⟩,
      List.prefix_rfl, fun _ => rfl⟩
    intro v child phase isChild atWorker
    rcases getElem?_set_cases atWorker with ⟨rfl, rfl⟩ | ⟨differ, old⟩
    · obtain ⟨exhausted, before, told⟩ := runs v _ _ isChild running
      exact ⟨exhausted, by simpa using before.turn acts, told⟩
    · simpa [Ne.symm differ] using runs v child phase isChild old
  · have inside : w < children.length := countEq ▸ (List.getElem?_eq_some_iff.mp running).1
    rcases Nat.lt_or_ge p.next works.length with more | all
    · -- the worker is handed the next work
      refine ⟨log ++ [(w, works[p.next])],
        fun v => turns v + if Event.work w = .work v then 1 else 0,
        ⟨worksEq, by simpa using countEq, ?_, ?_, sentWorkers, ?_⟩, List.prefix_append _ _,
        fun _ => rfl⟩
      · rw [List.map_append, logWorks, List.take_succ_eq_append_getElem more]
        rfl
      · intro entry member
        rcases List.mem_append.mp member with old | new
        · exact logWorkers entry old
        · rw [List.mem_singleton.mp new]
          exact inside
      · intro v child phase isChild atWorker
        rcases getElem?_set_cases atWorker with ⟨rfl, rfl⟩ | ⟨differ, old⟩
        · obtain ⟨exhausted, before, told⟩ := runs v _ _ isChild running
          have never : exhausted = false := by
            cases exhausted with
            | false => rfl
            | true => exact absurd (told rfl) (Nat.not_le.mpr more)
          subst never
          refine ⟨false, ?_, by simp⟩
          rw [worksEq, List.getElem?_eq_getElem more, ofWorker_append, ofWorker_same]
          simpa using before.handed acts works[p.next]
        · obtain ⟨exhausted, before, told⟩ := runs v child phase isChild old
          refine ⟨exhausted, ?_, fun yes => Nat.le_succ_of_le (told yes)⟩
          rw [ofWorker_append, ofWorker_other (Ne.symm differ), List.append_nil]
          simpa [Ne.symm differ] using before
    · -- there is none left
      refine ⟨log, fun v => turns v + if Event.work w = .work v then 1 else 0,
        ⟨worksEq, by simpa using countEq, ?_, logWorkers, sentWorkers, ?_⟩, List.prefix_rfl,
        fun _ => rfl⟩
      · rw [logWorks, List.take_of_length_le all, List.take_of_length_le (Nat.le_succ_of_le all)]
      · intro v child phase isChild atWorker
        rcases getElem?_set_cases atWorker with ⟨rfl, rfl⟩ | ⟨differ, old⟩
        · obtain ⟨exhausted, before, told⟩ := runs v _ _ isChild running
          refine ⟨true, ?_, fun _ => Nat.le_succ_of_le all⟩
          rw [worksEq, List.getElem?_eq_none all]
          simpa using before.exhausted acts
        · obtain ⟨exhausted, before, told⟩ := runs v child phase isChild old
          exact ⟨exhausted, by simpa [Ne.symm differ] using before,
            fun _ => Nat.le_succ_of_le all⟩
  · have inside : w < children.length := countEq ▸ (List.getElem?_eq_some_iff.mp sending).1
    refine ⟨log, turns, ⟨worksEq, by simpa using countEq, logWorks, logWorkers, ?_, ?_⟩,
      List.prefix_rfl, fun _ => by simp⟩
    · intro entry member
      rw [← List.append_assoc] at member
      rcases List.mem_append.mp member with old | new
      · exact sentWorkers entry old
      · rw [List.mem_singleton.mp new]
        exact inside
    · intro v child phase isChild atWorker
      rw [← List.append_assoc, ofWorker_append]
      rcases getElem?_set_cases atWorker with ⟨rfl, rfl⟩ | ⟨differ, old⟩
      · obtain ⟨exhausted, before, told⟩ := runs v _ _ isChild sending
        exact ⟨exhausted, by simpa using before.sent, told⟩
      · simpa [ofWorker_other (Ne.symm differ)] using runs v child phase isChild old
  · have moved : p.received ++ [entry] ++ rest = p.received ++ p.channel := by
      rw [channel, List.append_assoc, List.singleton_append]
    exact ⟨log, turns, ⟨worksEq, countEq, logWorks, logWorkers, by rwa [moved],
      by rwa [moved]⟩, List.prefix_rfl, fun _ => by simp⟩
  · exact ⟨log, turns, ⟨worksEq, countEq, logWorks, logWorkers, sentWorkers, runs⟩,
      List.prefix_rfl, fun _ => by simp⟩

/-- What has been handed out before a schedule is still so after it. -/
theorem run (explained : Explained act works children log turns p) {p' : Pool Work σ ι}
    {events : List Event} (ran : run act capacity p events = some p') :
    ∃ log' turns', Explained act works children log' turns' p' ∧ log <+: log' := by
  refine run_induction (motive := fun _ p => ∃ log' turns',
    Explained act works children log' turns' p ∧ log <+: log')
    ⟨log, turns, explained, List.prefix_rfl⟩ ?_ ran
  rintro _ before event after ⟨log', turns', explained', begins⟩ steps
  obtain ⟨log'', turns'', explained'', further, _⟩ := explained'.step steps
  exact ⟨log'', turns'', explained'', begins.trans further⟩

/-- When no item is in flight and all workers are done, each has ended a run of its own, in which
it has sent what the consumer received of it. -/
theorem ended (explained : Explained act works children log turns p) (empty : p.channel = [])
    (done : ∀ phase ∈ p.workers, phase.isDone = true) {w : Nat} {child : σ}
    (isChild : children[w]? = some child) : ∃ turns exhausted phase,
      p.workers[w]? = some phase ∧ (phase = .finished ∨ phase = .crashed) ∧
      Runs act child turns (ofWorker w log) exhausted (ofWorker w p.received) phase ∧
      (exhausted = true → works.length ≤ p.next) := by
  have inside : w < p.workers.length := by
    rw [explained.count_eq]
    exact (List.getElem?_eq_some_iff.mp isChild).1
  have atWorker := List.getElem?_eq_getElem inside
  obtain ⟨exhausted, runs, told⟩ := explained.runs w child _ isChild atWorker
  rw [empty, List.append_nil] at runs
  refine ⟨turns w, exhausted, _, atWorker, ?_, runs, told⟩
  have ended := done _ (List.getElem_mem inside)
  cases phase : p.workers[w] with
  | running s => rw [phase] at ended; cases ended
  | sending item s => rw [phase] at ended; cases ended
  | finished => exact .inl rfl
  | crashed => exact .inr rfl

end Explained

/-- **Every schedule is explained.** -/
theorem explained_of_run {works : List Work} {children : List σ} {events : List Event}
    {p : Pool Work σ ι} (ran : run act capacity (.ofChildren works children) events = some p) :
    ∃ log turns, Explained act works children log turns p ∧
      ∀ w, turns w = events.count (.work w) := by
  refine run_induction (motive := fun events p => ∃ log turns,
    Explained act works children log turns p ∧ ∀ w, turns w = events.count (.work w))
    ⟨[], fun _ => 0, .ofChildren, fun _ => rfl⟩ ?_ ran
  rintro events before event after ⟨log, turns, explained, counts⟩ steps
  obtain ⟨log', turns', explained', _, counts'⟩ := explained.step steps
  refine ⟨log', turns', explained', fun w => ?_⟩
  rw [counts' w, counts w, List.count_append, List.count_singleton]
  simp only [beq_iff_eq]

/-- When the consumer has learned that there are no more items, none is in flight and
all workers are done. -/
theorem done_of_hungUp {works : List Work} {children : List σ} {events : List Event}
    {p : Pool Work σ ι} (ran : run act capacity (.ofChildren works children) events = some p)
    (hungUp : p.hungUp = true) :
    p.channel = [] ∧ ∀ phase ∈ p.workers, phase.isDone = true := by
  refine run_induction (motive := fun _ p => p.hungUp = true →
    p.channel = [] ∧ ∀ phase ∈ p.workers, phase.isDone = true) (by simp [Pool.ofChildren])
    ?_ ran hungUp
  intro _ before event after ih steps ended
  have never : ∀ {w : Nat} {phase : Phase σ ι}, before.workers[w]? = some phase →
      phase.isDone = false → before.hungUp = true → False := by
    intro w phase atWorker busy before'
    have := (ih before').2 phase (List.mem_of_getElem? atWorker)
    rw [busy] at this
    cases this
  rcases step_cases steps with ⟨w, s, t, _, running, _, rfl⟩ | ⟨w, s, k, _, running, _, rfl⟩ |
    ⟨w, item, s, _, sending, rfl⟩ | ⟨entry, rest, _, channel, rfl⟩ | ⟨_, channel, done, _, rfl⟩
  · exact (never running rfl ended).elim
  · exact (never running rfl ended).elim
  · exact (never sending rfl ended).elim
  · rw [(ih ended).1] at channel
    cases channel
  · exact ⟨channel, done⟩

/-! ## Invariants of workers -/

/-- A turn keeps a property of the worker, and its items have another one. -/
def Turn.Keeps (I : σ → Prop) (J : ι → Prop) : Turn σ ι → Prop
  | again s => I s
  | ret item s => I s ∧ ∀ i ∈ item, J i
  | panic => True

theorem Turn.Keeps.mono {I I' : σ → Prop} {J J' : ι → Prop} {t : Turn σ ι} (kept : t.Keeps I J)
    (states : ∀ s, I s → I' s) (items : ∀ i, J i → J' i) : t.Keeps I' J' := by
  cases t with
  | again s => exact states s kept
  | ret item s => exact ⟨states s kept.1, fun i member => items i (kept.2 i member)⟩
  | panic => trivial

theorem Turn.keeps_true (t : Turn σ ι) : t.Keeps (fun _ => True) fun _ => True := by
  cases t with
  | again s => trivial
  | ret item s => exact ⟨trivial, fun _ _ => trivial⟩
  | panic => trivial

/-- The workers have a property, and so do their items, wherever these are. -/
structure Pool.Holds (I : σ → Prop) (J : ι → Prop) (p : Pool Work σ ι) : Prop where
  running : ∀ (w : Nat) (s : σ), p.workers[w]? = some (.running s) → I s
  sending : ∀ (w : Nat) (item : ι) (s : σ),
    p.workers[w]? = some (.sending item s) → I s ∧ J item
  sent : ∀ entry ∈ p.received ++ p.channel, J entry.2

/-- A property that every turn keeps holds all along. -/
theorem Pool.Holds.run {I : σ → Prop} {J : ι → Prop}
    (keeps : ∀ s work, I s → ((act s).answer work).Keeps I J) {p p' : Pool Work σ ι}
    {events : List Event} (holds : p.Holds I J)
    (ran : WorkPool.run act capacity p events = some p') :
    p'.Holds I J := by
  refine run_induction (motive := fun _ p => p.Holds I J) holds ?_ ran
  intro _ before event after holds steps
  have turned : ∀ {w : Nat} {t : Turn σ ι}, t.Keeps I J →
      (∀ (v : Nat) (s : σ), (before.workers.set w t.phase)[v]? = some (.running s) → I s) ∧
      ∀ (v : Nat) (item : ι) (s : σ),
        (before.workers.set w t.phase)[v]? = some (.sending item s) → I s ∧ J item := by
    intro w t kept
    constructor
    · intro v s atWorker
      rcases getElem?_set_cases atWorker with ⟨_, new⟩ | ⟨_, old⟩
      · match t, kept, new with
        | .again _, kept, rfl => exact kept
        | .ret none _, _, new => cases new
        | .ret (some _) _, _, new => cases new
        | .panic, _, new => cases new
      · exact holds.running v s old
    · intro v item s atWorker
      rcases getElem?_set_cases atWorker with ⟨_, new⟩ | ⟨_, old⟩
      · match t, kept, new with
        | .ret (some _) _, kept, rfl => exact ⟨kept.1, kept.2 _ rfl⟩
        | .ret none _, _, new => cases new
        | .again _, _, new => cases new
        | .panic, _, new => cases new
      · exact holds.sending v item s old
  rcases step_cases steps with ⟨w, s, t, _, running, acts, rfl⟩ |
    ⟨w, s, k, _, running, acts, rfl⟩ | ⟨w, item, s, _, sending, rfl⟩ |
    ⟨entry, rest, _, channel, rfl⟩ | ⟨_, _, _, _, rfl⟩
  · have kept := keeps s none (holds.running w s running)
    rw [acts] at kept
    exact ⟨(turned kept).1, (turned kept).2, holds.sent⟩
  · have kept := keeps s before.works[before.next]? (holds.running w s running)
    rw [acts] at kept
    exact ⟨(turned kept).1, (turned kept).2, holds.sent⟩
  · obtain ⟨state, good⟩ := holds.sending w item s sending
    have kept : (Turn.again s : Turn σ ι).Keeps I J := state
    refine ⟨(turned kept).1, (turned kept).2, fun entry member => ?_⟩
    rw [← List.append_assoc] at member
    rcases List.mem_append.mp member with old | new
    · exact holds.sent entry old
    · rw [List.mem_singleton.mp new]
      exact good
  · refine ⟨holds.running, holds.sending, fun moved member => holds.sent moved ?_⟩
    rw [channel]
    simpa using member
  · exact ⟨holds.running, holds.sending, holds.sent⟩

/-- A property that every turn keeps holds of a worker alone, too. -/
theorem Runs.keeps {I : σ → Prop} {J : ι → Prop}
    (keeps : ∀ s work, I s → ((act s).answer work).Keeps I J) {start : σ} (initial : I start)
    {n : Nat} {handed : List Work} {exhausted : Bool} {sent : List ι} {phase : Phase σ ι}
    (runs : Runs act start n handed exhausted sent phase) :
    ∀ s ∈ phase.worker, I s := by
  have turned : ∀ t : Turn σ ι, t.Keeps I J → ∀ s ∈ t.phase.worker, I s := by
    intro t kept s member
    cases t with
    | again s' =>
        cases member
        exact kept
    | ret item s' =>
        cases item with
        | none => cases member
        | some item =>
            cases member
            exact kept.1
    | panic => cases member
  induction runs with
  | start =>
      intro s member
      cases member
      exact initial
  | turn before acts ih =>
      have kept := keeps _ none (ih _ rfl)
      rw [acts] at kept
      exact turned _ kept
  | handed before acts work ih =>
      have kept := keeps _ (some work) (ih _ rfl)
      rw [acts] at kept
      exact turned _ kept
  | exhausted before acts ih =>
      have kept := keeps _ none (ih _ rfl)
      rw [acts] at kept
      exact turned _ kept
  | sent before ih => exact ih

/-- The property at the start. -/
theorem Pool.Holds.init {I : σ → Prop} {J : ι → Prop} {works : List Work} {count : Nat} {start : σ}
    (initial : I start) : (Pool.init works count start : Pool Work σ ι).Holds I J := by
  constructor
  · intro w s atWorker
    have same := (List.mem_replicate.mp (List.mem_of_getElem? atWorker)).2
    cases same
    exact initial
  · intro w item s atWorker
    have same := (List.mem_replicate.mp (List.mem_of_getElem? atWorker)).2
    cases same
  · intro entry member
    cases member

/-! ## The way of an item -/

/-- An item of a worker is on its way to the consumer, or has arrived. -/
def Carries (p : Pool Work σ ι) (w : Nat) (item : ι) : Prop :=
  (∃ s, p.workers[w]? = some (.sending item s)) ∨ (w, item) ∈ p.channel ∨ (w, item) ∈ p.received

/-- A worker whose turn returns an item has it on its way. -/
theorem carries_of_work {p p' : Pool Work σ ι} {w : Nat} {s s' : σ} {item : ι}
    (running : p.workers[w]? = some (.running s))
    (returns : (act s).answer p.works[p.next]? = .ret (some item) s')
    (steps : step act capacity p (.work w) = some p') : Carries p' w item := by
  have inside : w < p.workers.length := (List.getElem?_eq_some_iff.mp running).1
  refine .inl ⟨s', ?_⟩
  cases acts : act s with
  | turn t =>
      rw [acts] at returns
      simp only [step, running, acts, Option.some.injEq] at steps
      rw [← steps, List.getElem?_set_self inside, show t = .ret (some item) s' from returns]
      rfl
  | nextWork k =>
      rw [acts] at returns
      simp only [step, running, acts, Option.some.injEq] at steps
      rw [← steps, List.getElem?_set_self inside]
      exact congrArg some (congrArg Turn.phase returns)

/-- **No event loses an item.** -/
theorem Carries.step {p p' : Pool Work σ ι} {w : Nat} {item : ι} {event : Event}
    (carries : Carries p w item) (steps : step act capacity p event = some p') :
    Carries p' w item := by
  have stays : ∀ {v : Nat} {phase new : Phase σ ι}, p.workers[v]? = some phase →
      (∀ item s, phase ≠ .sending item s) → (∃ s, p.workers[w]? = some (.sending item s)) →
      ∃ s, (p.workers.set v new)[w]? = some (.sending item s) := by
    rintro v phase new atWorker idle ⟨s, sending⟩
    refine ⟨s, ?_⟩
    rw [List.getElem?_set_ne, sending]
    rintro rfl
    rw [sending] at atWorker
    exact idle item s (Option.some.inj atWorker).symm
  rcases step_cases steps with ⟨v, s, t, _, running, _, rfl⟩ | ⟨v, s, k, _, running, _, rfl⟩ |
    ⟨v, sent, s, _, sending, rfl⟩ | ⟨entry, rest, _, channel, rfl⟩ | ⟨_, _, _, _, rfl⟩
  · exact carries.imp_left (stays running fun _ _ => nofun)
  · exact carries.imp_left (stays running fun _ _ => nofun)
  · rcases carries with ⟨s', atWorker⟩ | inFlight | arrived
    · by_cases same : v = w
      · subst same
        rw [sending] at atWorker
        cases atWorker
        exact .inr (.inl (by simp))
      · exact .inl ⟨s', by rw [List.getElem?_set_ne same, atWorker]⟩
    · exact .inr (.inl (List.mem_append_left _ inFlight))
    · exact .inr (.inr arrived)
  · rcases carries with sending | inFlight | arrived
    · exact .inl sending
    · rw [channel, List.mem_cons] at inFlight
      rcases inFlight with rfl | inFlight
      · exact .inr (.inr (by simp))
      · exact .inr (.inl inFlight)
    · exact .inr (.inr (List.mem_append_left _ arrived))
  · exact carries

/-- **No schedule loses an item.** -/
theorem Carries.run {p p' : Pool Work σ ι} {w : Nat} {item : ι} {events : List Event}
    (carries : Carries p w item) (ran : run act capacity p events = some p') :
    Carries p' w item :=
  run_induction (motive := fun _ p => Carries p w item) carries
    (fun _ _ _ _ carries steps => carries.step steps) ran

/-- When the consumer has learned that there are no more items, the item has arrived. -/
theorem Carries.received {works : List Work} {children : List σ} {events : List Event}
    {p : Pool Work σ ι} {w : Nat} {item : ι} (carries : Carries p w item)
    (ran : WorkPool.run act capacity (.ofChildren works children) events = some p)
    (hungUp : p.hungUp = true) : (w, item) ∈ p.received := by
  obtain ⟨empty, done⟩ := done_of_hungUp ran hungUp
  rcases carries with ⟨s, sending⟩ | inFlight | arrived
  · have ended := done _ (List.mem_of_getElem? sending)
    cases ended
  · rw [empty] at inFlight
    cases inFlight
  · exact arrived

/-- What has been received stays received. -/
theorem received_prefix_of_run {p p' : Pool Work σ ι} {events : List Event}
    (ran : WorkPool.run act capacity p events = some p') : p.received <+: p'.received := by
  refine run_induction (motive := fun _ p' => p.received <+: p'.received) List.prefix_rfl ?_ ran
  intro _ before event after earlier steps
  rcases step_cases steps with ⟨v, s, t, _, _, _, rfl⟩ | ⟨v, s, k, _, _, _, rfl⟩ |
    ⟨v, sent, s, _, _, rfl⟩ | ⟨entry, rest, _, _, rfl⟩ | ⟨_, _, _, _, rfl⟩
  · exact earlier
  · exact earlier
  · exact earlier
  · exact earlier.trans (List.prefix_append _ _)
  · exact earlier

/-- The consumer can receive all that is in flight. -/
theorem exists_drain (p : Pool Work σ ι) : ∃ events,
    run act capacity p events =
      some { p with channel := [], received := p.received ++ p.channel } := by
  obtain ⟨works, next, workers, channel, received, hungUp⟩ := p
  induction channel generalizing received with
  | nil => exact ⟨[], by simp [run]⟩
  | cons entry rest ih =>
      obtain ⟨events, drained⟩ := ih (received ++ [entry])
      refine ⟨.receive :: events, ?_⟩
      have received' : received ++ [entry] ++ rest = received ++ entry :: rest := by simp
      simpa [run, WorkPool.step, received'] using drained

/-- **The item can arrive.** -/
theorem Carries.exists_received {p : Pool Work σ ι} {w : Nat} {item : ι} (room : 0 < capacity)
    (carries : Carries p w item) : ∃ events p',
      WorkPool.run act capacity p events = some p' ∧ (w, item) ∈ p'.received := by
  obtain ⟨events, drained⟩ := @exists_drain _ _ _ act capacity p
  rcases carries with ⟨s, sending⟩ | inFlight | arrived
  · refine ⟨events ++ [.send w, .receive],
      { p with
        workers := p.workers.set w (.running s)
        channel := []
        received := p.received ++ p.channel ++ [(w, item)] }, ?_, by simp⟩
    rw [run_append, drained]
    simp [WorkPool.run, WorkPool.step, sending, room]
  · exact ⟨events, _, drained, List.mem_append_right _ inFlight⟩
  · exact ⟨events, _, drained, List.mem_append_left _ arrived⟩

section Results

variable {start : σ} {works : List Work} {count : Nat} {result : List Work → List ι} {base : Nat}
  {weight : Work → Nat} {events : List Event} {p : Pool Work σ ι}

/-- **How the workers end.** When the consumer has learned that there are no more items, the
works handed out have been divided among the workers, and each worker has ended a run of its
own on its share, in which it has sent what the consumer received of it. -/
theorem ended_of_hungUp {children : List σ}
    (ran : run act capacity (.ofChildren works children) events = some p)
    (hungUp : p.hungUp = true) :
    ∃ log : List (Nat × Work), log.map Prod.snd = works.take p.next ∧
      (∀ entry ∈ log, entry.1 < children.length) ∧
      (∀ entry ∈ p.received, entry.1 < children.length) ∧
      (∀ w, (ofWorker w log).Sublist works) ∧
      ∀ w child, children[w]? = some child → ∃ turns exhausted phase,
        p.workers[w]? = some phase ∧ (phase = .finished ∨ phase = .crashed) ∧
        Runs act child turns (ofWorker w log) exhausted (ofWorker w p.received) phase ∧
        (exhausted = true → works.length ≤ p.next) := by
  obtain ⟨log, turns, explained, _⟩ := explained_of_run ran
  obtain ⟨empty, done⟩ := done_of_hungUp ran hungUp
  refine ⟨log, explained.log_works, explained.log_workers, ?_, explained.handed_sublist, ?_⟩
  · simpa [empty] using explained.sent_workers
  · intro w child isChild
    exact explained.ended empty done isChild

/-- **How a pool ends.** Workers that deliver finish their runs. -/
theorem finished_of_hungUp (delivers : Delivers act start works result base weight)
    (ran : run act capacity (.init works count start) events = some p)
    (hungUp : p.hungUp = true) :
    ∃ log : List (Nat × Work), log.map Prod.snd = works.take p.next ∧
      (∀ entry ∈ log, entry.1 < count) ∧ (∀ entry ∈ p.received, entry.1 < count) ∧
      (∀ w, (ofWorker w log).Sublist works) ∧
      ∀ w < count, ∃ turns exhausted, Runs act start turns (ofWorker w log) exhausted
        (ofWorker w p.received) .finished ∧ (exhausted = true → works.length ≤ p.next) := by
  rw [Pool.init_eq] at ran
  obtain ⟨log, logWorks, logWorkers, sentWorkers, share, fate⟩ := ended_of_hungUp ran hungUp
  rw [List.length_replicate] at logWorkers sentWorkers
  refine ⟨log, logWorks, logWorkers, sentWorkers, share, fun w inside => ?_⟩
  obtain ⟨turns, exhausted, phase, _, ended, runs, told⟩ :=
    fate w start (List.getElem?_replicate_of_lt inside)
  rcases ended with rfl | rfl
  · exact ⟨turns, exhausted, runs, told⟩
  · exact (delivers.safe (share w) runs).elim

/-- Workers that deliver do not crash. -/
theorem not_crashed_of_run (delivers : Delivers act start works result base weight)
    (ran : run act capacity (.init works count start) events = some p) :
    .crashed ∉ p.workers := by
  intro member
  obtain ⟨w, atWorker⟩ := List.getElem?_of_mem member
  rw [Pool.init_eq] at ran
  obtain ⟨log, _, explained, _⟩ := explained_of_run ran
  have inside : w < count := by
    rw [← List.length_replicate (n := count) (a := start), ← explained.count_eq]
    exact (List.getElem?_eq_some_iff.mp atWorker).1
  obtain ⟨_, runs, _⟩ := explained.runs w start .crashed (List.getElem?_replicate_of_lt inside)
    atWorker
  exact delivers.safe (explained.handed_sublist w) runs

/-- **What the consumer receives**: of each worker the result on its share, in order.
Workers that go on until there are no more works divide all works among them. -/
theorem received_of_hungUp (delivers : Delivers act start works result base weight)
    (ran : run act capacity (.init works count start) events = some p)
    (hungUp : p.hungUp = true) :
    ∃ log : List (Nat × Work), log.map Prod.snd = works.take p.next ∧
      (∀ entry ∈ log, entry.1 < count) ∧ (∀ entry ∈ p.received, entry.1 < count) ∧
      (∀ w < count, ofWorker w p.received = result (ofWorker w log)) ∧
      (Exhausts act start works → 0 < count → log.map Prod.snd = works) := by
  obtain ⟨log, logWorks, logWorkers, sentWorkers, share, fate⟩ :=
    finished_of_hungUp delivers ran hungUp
  refine ⟨log, logWorks, logWorkers, sentWorkers, fun w inside => ?_, fun exhausts workers => ?_⟩
  · obtain ⟨turns, exhausted, runs, _⟩ := fate w inside
    exact delivers.complete (share w) runs
  · obtain ⟨turns, exhausted, runs, told⟩ := fate 0 workers
    rw [logWorks, List.take_of_length_le (told (exhausts (share 0) runs))]

/-- **Nothing is lost and nothing is duplicated.** If the items of a worker come from its
works one by one, the consumer receives the items of all works. -/
theorem received_perm_of_hungUp {items : Work → List ι}
    (delivers : Delivers act start works (List.flatMap items) base weight)
    (exhausts : Exhausts act start works) (workers : 0 < count)
    (ran : run act capacity (.init works count start) events = some p)
    (hungUp : p.hungUp = true) : (p.received.map Prod.snd).Perm (works.flatMap items) := by
  obtain ⟨log, _, logWorkers, sentWorkers, each, all⟩ := received_of_hungUp delivers ran hungUp
  have shares : (List.range count).flatMap (fun w => ofWorker w p.received) =
      ((List.range count).flatMap fun w => ofWorker w log).flatMap items := by
    rw [List.flatMap_assoc]
    exact List.flatMap_congr fun w member => each w (List.mem_range.mp member)
  calc (p.received.map Prod.snd).Perm
        ((List.range count).flatMap fun w => ofWorker w p.received) :=
      perm_flatMap_ofWorker sentWorkers
    _ = _ := shares
    _ |>.Perm ((log.map Prod.snd).flatMap items) :=
      (perm_flatMap_ofWorker logWorkers).symm.flatMap_right items
    _ = works.flatMap items := by rw [all exhausts workers]

/-! ## Termination -/

/-- The events of a schedule, counted. -/
theorem length_of_run (ran : run act capacity (.init works count start) events = some p) :
    events.length = ∑ w ∈ Finset.range count, events.count (.work w) +
      (p.received ++ p.channel).length + p.received.length + p.hungUp.toNat := by
  suffices both : p.workers.length = count ∧
      events.length = ∑ w ∈ Finset.range count, events.count (.work w) +
        (p.received ++ p.channel).length + p.received.length + p.hungUp.toNat from both.2
  refine run_induction (motive := fun events p => p.workers.length = count ∧
    events.length = ∑ w ∈ Finset.range count, events.count (.work w) +
      (p.received ++ p.channel).length + p.received.length + p.hungUp.toNat)
    (by simp [Pool.init]) ?_ ran
  rintro events before event after ⟨countEq, total⟩ steps
  have turn : ∀ {w : Nat} {phase : Phase σ ι}, before.workers[w]? = some phase →
      ∑ v ∈ Finset.range count, (events ++ [Event.work w]).count (.work v) =
        ∑ v ∈ Finset.range count, events.count (.work v) + 1 := by
    intro w phase atWorker
    have inside : w < count := countEq ▸ (List.getElem?_eq_some_iff.mp atWorker).1
    simp only [List.count_append, List.count_singleton, Finset.sum_add_distrib, beq_iff_eq,
      Event.work.injEq, Finset.sum_ite_eq, Finset.mem_range, inside, if_true]
  have other : ∀ {event : Event}, (∀ w, event ≠ .work w) →
      ∑ v ∈ Finset.range count, (events ++ [event]).count (.work v) =
        ∑ v ∈ Finset.range count, events.count (.work v) := by
    intro event differ
    refine Finset.sum_congr rfl fun v _ => ?_
    simp [List.count_append, differ v]
  rcases step_cases steps with ⟨w, s, t, rfl, running, _, rfl⟩ | ⟨w, s, k, rfl, running, _, rfl⟩ |
    ⟨w, item, s, rfl, sending, rfl⟩ | ⟨entry, rest, rfl, channel, rfl⟩ |
    ⟨rfl, channel, done, open', rfl⟩
  · refine ⟨by simpa using countEq, ?_⟩
    rw [turn running, List.length_append, total, List.length_singleton]
    simp only
    omega
  · refine ⟨by simpa using countEq, ?_⟩
    rw [turn running, List.length_append, total, List.length_singleton]
    simp only
    omega
  · refine ⟨by simpa using countEq, ?_⟩
    rw [other (by simp), List.length_append, total]
    simp only [List.length_append, List.length_singleton]
    omega
  · refine ⟨countEq, ?_⟩
    rw [other (by simp), List.length_append, total, channel]
    simp only [List.length_append, List.length_cons, List.length_nil]
    omega
  · refine ⟨countEq, ?_⟩
    rw [other (by simp), List.length_append, total, open']
    rfl

/-- **Every schedule is finite.** -/
theorem length_le_of_run (delivers : Delivers act start works result base weight)
    (ran : run act capacity (.init works count start) events = some p) :
    events.length ≤ 3 * (count * base + (works.map weight).sum) + 1 := by
  have total := length_of_run ran
  rw [Pool.init_eq] at ran
  obtain ⟨log, turns, explained, counts⟩ := explained_of_run ran
  have sentWorkers : ∀ entry ∈ p.received ++ p.channel, entry.1 < count := by
    simpa using explained.sent_workers
  have logWorkers : ∀ entry ∈ log, entry.1 < count := by simpa using explained.log_workers
  have each : ∀ w ∈ Finset.range count,
      (ofWorker w (p.received ++ p.channel)).length ≤ turns w ∧
        turns w ≤ base + ((ofWorker w log).map weight).sum := by
    intro w member
    have child : (List.replicate count start)[w]? = some start :=
      List.getElem?_replicate_of_lt (Finset.mem_range.mp member)
    have inside : w < p.workers.length := by
      rw [explained.count_eq, List.length_replicate]
      exact Finset.mem_range.mp member
    obtain ⟨exhausted, runs, _⟩ := explained.runs w _ _ child (List.getElem?_eq_getElem inside)
    exact ⟨Nat.le_of_add_right_le runs.sent_length_le,
      delivers.bounded (explained.handed_sublist w) runs⟩
  have sent : (p.received ++ p.channel).length ≤ ∑ w ∈ Finset.range count, turns w := by
    have grouped := (perm_flatMap_ofWorker sentWorkers).length_eq
    rw [List.length_map, List.length_flatMap] at grouped
    exact grouped ▸ Finset.sum_le_sum fun w member => (each w member).1
  have weighed : ∑ w ∈ Finset.range count, ((ofWorker w log).map weight).sum ≤
      (works.map weight).sum := by
    have grouped := ((perm_flatMap_ofWorker logWorkers).map weight).sum_eq
    rw [List.map_flatMap, List.flatMap, List.sum_flatten, List.map_map, List.map_map] at grouped
    calc ((List.range count).map fun w => ((ofWorker w log).map weight).sum).sum
        = ((log.map Prod.snd).map weight).sum := by
          rw [List.map_map]
          exact grouped.symm
      _ ≤ (works.map weight).sum := by
        rw [explained.log_works]
        exact ((List.take_sublist _ _).map weight).sum_le_sum fun _ _ => Nat.zero_le _
  have turned : ∑ w ∈ Finset.range count, turns w ≤ count * base + (works.map weight).sum :=
    calc ∑ w ∈ Finset.range count, turns w
        ≤ ∑ w ∈ Finset.range count, (base + ((ofWorker w log).map weight).sum) :=
          Finset.sum_le_sum fun w member => (each w member).2
      _ = count * base + ∑ w ∈ Finset.range count, ((ofWorker w log).map weight).sum := by
          rw [Finset.sum_add_distrib, Finset.sum_const, Finset.card_range, smul_eq_mul]
      _ ≤ count * base + (works.map weight).sum := Nat.add_le_add_left weighed _
  simp only [← counts] at total
  have ends : p.hungUp.toNat ≤ 1 := Bool.toNat_le p.hungUp
  rw [List.length_append] at sent total
  omega

/-- **A pool never gets stuck.** -/
theorem exists_step (room : 0 < capacity) (p : Pool Work σ ι) (going : p.hungUp = false) :
    ∃ event p', step act capacity p event = some p' := by
  cases channel : p.channel with
  | cons entry rest => exact ⟨.receive, _, by simp only [step, channel]; rfl⟩
  | nil =>
      by_cases done : ∀ phase ∈ p.workers, phase.isDone = true
      · refine ⟨.disconnect, { p with hungUp := true }, ?_⟩
        rw [step, if_pos ⟨by simp [channel], by simpa using done, going⟩]
      · obtain ⟨phase, member, busy⟩ : ∃ phase ∈ p.workers, phase.isDone ≠ true := by
          simpa using done
        obtain ⟨w, atWorker⟩ := List.getElem?_of_mem member
        cases phase with
        | running s =>
            refine ⟨.work w, ?_⟩
            simp only [step, atWorker]
            cases act s with
            | turn t => exact ⟨_, rfl⟩
            | nextWork k => exact ⟨_, rfl⟩
        | sending item s =>
            refine ⟨.send w, ?_⟩
            simp only [step, atWorker, channel, List.length_nil, room, if_true]
            exact ⟨_, rfl⟩
        | finished => exact (busy rfl).elim
        | crashed => exact (busy rfl).elim

/-- **Every schedule can be completed.** -/
theorem exists_completion (delivers : Delivers act start works result base weight)
    (room : 0 < capacity)
    (ran : run act capacity (.init works count start) events = some p) :
    ∃ more p', run act capacity (.init works count start) (events ++ more) = some p' ∧
      p'.hungUp = true := by
  induction left : 3 * (count * base + (works.map weight).sum) + 1 - events.length
      using Nat.strongRecOn generalizing events p with
  | ind left ih =>
      cases going : p.hungUp with
      | true => exact ⟨[], p, by rwa [List.append_nil], going⟩
      | false =>
          obtain ⟨event, after, steps⟩ : ∃ event after, step act capacity p event = some after :=
            exists_step room p going
          have longer : run act capacity (.init works count start) (events ++ [event]) =
              some after := by
            rw [run_append, ran]
            simp [run, steps]
          have bound := length_le_of_run delivers longer
          rw [List.length_append, List.length_singleton] at bound
          obtain ⟨more, p', completed, ended⟩ := ih _ (by
            rw [← left, List.length_append, List.length_singleton]
            omega) longer rfl
          exact ⟨event :: more, p', by simpa using completed, ended⟩

end Results

/-! ## One worker at a time -/

/-- **A run of one worker is a schedule.** Let a worker that has not begun be the only one to
act, on the next works, with the channel empty. The pool can do what the worker does alone,
and the consumer receives what it sends. -/
theorem exists_run_of_runs {act : σ → Act Work σ ι} {start : σ} {capacity n w : Nat}
    {handed : List Work} {exhausted : Bool} {sent : List ι} {phase : Phase σ ι}
    {p : Pool Work σ ι} (room : 0 < capacity) (fresh : p.workers[w]? = some (.running start))
    (channel : p.channel = []) (runs : Runs act start n handed exhausted sent phase)
    (inOrder : handed <+: p.works.drop p.next)
    (told : exhausted = true → p.works.drop p.next = handed) :
    ∃ events next, p.works.drop next = (p.works.drop p.next).drop handed.length ∧
      run act capacity p events = some { p with
        next := next
        workers := p.workers.set w phase
        received := p.received ++ sent.map fun item => (w, item) } := by
  have worker : ∀ phase : Phase σ ι, (p.workers.set w phase)[w]? = some phase := fun phase =>
    List.getElem?_set_self (List.getElem?_eq_some_iff.mp fresh).1
  induction runs with
  | start =>
      obtain ⟨inside, here⟩ := List.getElem?_eq_some_iff.mp fresh
      have same : p.workers.set w (.running start) = p.workers :=
        here ▸ List.set_getElem_self inside
      exact ⟨[], p.next, rfl, by simp [run, same]⟩
  | turn before acts ih =>
      obtain ⟨events, next, left, ran⟩ := ih inOrder told
      refine ⟨events ++ [.work w], next, left, ?_⟩
      rw [run_append, ran]
      simp [run, step, worker, acts]
  | @handed n handed sent s k before acts work ih =>
      obtain ⟨events, next, left, ran⟩ := ih ((List.prefix_append _ _).trans inOrder) nofun
      obtain ⟨rest, all⟩ := inOrder
      rw [← all, List.append_assoc, List.drop_left] at left
      have handedOut : p.works[next]? = some work := by
        rw [← List.head?_drop, left]
        rfl
      refine ⟨events ++ [.work w], next + 1, ?_, ?_⟩
      · rw [← all, List.drop_left, ← List.tail_drop, left]
        rfl
      · rw [run_append, ran]
        simp [run, step, worker, acts, handedOut]
  | @exhausted n handed exhausted sent s k before acts ih =>
      obtain ⟨events, next, left, ran⟩ := ih inOrder fun _ => told rfl
      rw [told rfl, List.drop_length] at left
      have noMore : p.works[next]? = none := by
        rw [← List.head?_drop, left]
        rfl
      refine ⟨events ++ [.work w], next + 1, ?_, ?_⟩
      · rw [told rfl, List.drop_length, ← List.tail_drop, left]
        rfl
      · rw [run_append, ran]
        simp [run, step, worker, acts, noMore]
  | sent before ih =>
      obtain ⟨events, next, left, ran⟩ := ih inOrder told
      refine ⟨events ++ [.send w, .receive], next, left, ?_⟩
      rw [run_append, ran]
      simp [run, step, worker, channel, room]

/-- **Two workers act one after the other**, the first on the next works and the second on those
that follow, and the consumer receives what they send. -/
theorem exists_run_of_two {act : σ → Act Work σ ι} {start : σ} {works : List Work}
    {capacity count n n' : Nat} {first second rest : List Work} {sent sent' : List ι}
    {phase phase' : Phase σ ι} (room : 0 < capacity) (workers : 1 < count)
    (runs : Runs act start n first false sent phase)
    (runs' : Runs act start n' second false sent' phase')
    (inOrder : first ++ second ++ rest = works) :
    ∃ events next, works.drop next = rest ∧
      run act capacity (.init works count start) events = some
        ⟨works, next, ((List.replicate count (.running start)).set 0 phase).set 1 phase', [],
          (sent.map fun item => (0, item)) ++ sent'.map fun item => (1, item), false⟩ := by
  subst inOrder
  have fresh : ∀ w < count, (List.replicate count (Phase.running start : Phase σ ι))[w]? =
      some (.running start) := fun w inside => List.getElem?_replicate_of_lt inside
  obtain ⟨events, next, left, ran⟩ := exists_run_of_runs
    (p := Pool.init (first ++ second ++ rest) count start) room (fresh 0 (by omega)) rfl runs
    ⟨second ++ rest, by simp [Pool.init]⟩ nofun
  have left : (first ++ second ++ rest).drop next = second ++ rest := by
    simpa [Pool.init] using left
  obtain ⟨events', next', left', ran'⟩ := exists_run_of_runs (w := 1)
    (p := ⟨first ++ second ++ rest, next,
      (List.replicate count (Phase.running start)).set 0 phase, [],
      [] ++ sent.map fun item => (0, item), false⟩) room
    (by rw [List.getElem?_set_ne (by decide)]; exact fresh 1 workers) rfl runs'
    (left ▸ List.prefix_append _ _) nofun
  have left' : (first ++ second ++ rest).drop next' = rest := by
    rw [left', left, List.drop_left]
  have both := (run_append _ events events').trans (congrArg (Option.bind · _) ran)
  exact ⟨events ++ events', next', left', both.trans ran'⟩

end TinyOlap.Library.WorkPool
