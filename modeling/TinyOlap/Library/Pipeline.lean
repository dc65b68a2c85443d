import TinyOlap.Library.WorkPool

/-!
# Operators over workers

An operator is put on top of a worker: it pulls the worker's items, one call at a time,
and returns items of its own. It may stop before it pulls (`gate`), answer an item with
another item or by pulling again (`item`), and answer the end with a last item (`last`).

What an operator makes of a list of items is a function of the list (`Operator.result`).
If the worker below delivers items, and the function is defined on them, the operator
on top delivers the result of the function (`Delivers.operator`), with one turn more.
A worker that delivers can also be executed alone, on any list of works (`collect_eq`).
-/

set_option autoImplicit false

namespace TinyOlap.Library.WorkPool

variable {Work σ τ ι κ X : Type}

/-! ## Operators -/

structure Operator (X ι κ : Type) where
  /-- The operator returns none without pulling. -/
  gate : X → Bool
  /-- The answer to an item. -/
  item : X → ι → Turn X κ
  /-- The answer to the end of the items. -/
  last : X → Turn X κ

def Turn.map (f : σ → τ) : Turn σ ι → Turn τ ι
  | again s => again (f s)
  | ret item s => ret item (f s)
  | panic => panic

def Act.map (f : Turn σ ι → Turn τ κ) : Act Work σ ι → Act Work τ κ
  | turn t => turn (f t)
  | nextWork k => nextWork fun work => f (k work)

theorem Act.answer_map (f : Turn σ ι → Turn τ κ) (act : Act Work σ ι) (work : Option Work) :
    (act.map f).answer work = f (act.answer work) := by
  cases act <;> rfl

/-- A renamed state has the property if the state has. -/
theorem Turn.Keeps.map {I : τ → Prop} {J : ι → Prop} {f : σ → τ} {t : Turn σ ι}
    (kept : t.Keeps (fun s => I (f s)) J) : (t.map f).Keeps I J := by
  cases t with
  | again s => exact kept
  | ret item s => exact kept
  | panic => trivial

theorem Act.map_map {υ ζ : Type} (f : Turn σ ι → Turn τ κ) (g : Turn τ κ → Turn υ ζ)
    (act : Act Work σ ι) : (act.map f).map g = act.map (g ∘ f) := by
  cases act <;> rfl

theorem Act.map_eq_turn {f : Turn σ ι → Turn τ κ} {below : Act Work σ ι} {t' : Turn τ κ}
    (turned : below.map f = .turn t') : ∃ t, below = .turn t ∧ t' = f t := by
  cases below with
  | turn t =>
      cases turned
      exact ⟨t, rfl, rfl⟩
  | nextWork k => cases turned

theorem Act.map_eq_nextWork {f : Turn σ ι → Turn τ κ} {below : Act Work σ ι}
    {k' : Option Work → Turn τ κ} (turned : below.map f = .nextWork k') :
    ∃ k, below = .nextWork k ∧ k' = fun work => f (k work) := by
  cases below with
  | turn t => cases turned
  | nextWork k =>
      cases turned
      exact ⟨k, rfl, rfl⟩

namespace Operator

variable (op : Operator X ι κ)

/-- How the operator answers a turn of the worker below. The state of both is put
together by `wrap`. -/
def react (wrap : X → σ → τ) (x : X) : Turn σ ι → Turn τ κ
  | .again s => .again (wrap x s)
  | .ret (some i) s => (op.item x i).map fun x => wrap x s
  | .ret none s => (op.last x).map fun x => wrap x s
  | .panic => .panic

/-- The operator on top of a worker that would act so. -/
def onTop (below : Act Work σ ι) (wrap : X → σ → τ) (x : X) (s : σ) : Act Work τ κ :=
  if op.gate x then .turn (.ret none (wrap x s)) else below.map (op.react wrap x)

/-- Whatever the next work is, the operator stops or answers the worker below. -/
theorem answer_onTop (below : Act Work σ ι) (wrap : X → σ → τ) (x : X) (s : σ)
    (work : Option Work) :
    (op.onTop below wrap x s).answer work =
      if op.gate x then .ret none (wrap x s) else op.react wrap x (below.answer work) := by
  rw [onTop]
  split
  · rfl
  · exact Act.answer_map _ below work

/-- An operator keeps a property if its answers do, given that the worker below keeps one. -/
theorem keeps_onTop {op : Operator X ι κ} {below : Act Work σ ι} {wrap : X → σ → τ} {x : X}
    {s : σ} {work : Option Work} {I : σ → Prop} {J : ι → Prop} {K : τ → Prop} {L : κ → Prop}
    (kept : (below.answer work).Keeps I J) (stops : op.gate x = true → K (wrap x s))
    (again : ∀ s, I s → K (wrap x s))
    (item : ∀ i s, J i → I s → ((op.item x i).map fun x => wrap x s).Keeps K L)
    (last : ∀ s, I s → ((op.last x).map fun x => wrap x s).Keeps K L) :
    ((op.onTop below wrap x s).answer work).Keeps K L := by
  rw [answer_onTop]
  split
  · rename_i gated
    exact ⟨stops gated, by simp⟩
  · cases answer : below.answer work with
    | again s =>
        rw [answer] at kept
        exact again s kept
    | ret i s =>
        rw [answer] at kept
        cases i with
        | none => exact last s kept.1
        | some i => exact item i s (kept.2 i rfl) kept.1
    | panic => trivial

/-- A property of both states put together is kept if the worker below keeps its part. -/
theorem keeps_wrapped {op : Operator X ι κ} {below : Act Work σ ι} {wrap : X → σ → τ} {x : X}
    {s : σ} {work : Option Work} {I : σ → Prop} {K : τ → Prop}
    (kept : (below.answer work).Keeps I fun _ => True) (state : I s)
    (wraps : ∀ x s, I s → K (wrap x s)) :
    ((op.onTop below wrap x s).answer work).Keeps K fun _ => True := by
  have turned : ∀ (t : Turn X κ) (s : σ), I s →
      (t.map fun x => wrap x s).Keeps K fun _ => True := fun t s inside =>
    (t.keeps_true.mono (fun x _ => wraps x s inside) fun _ _ => trivial).map
  exact keeps_onTop kept (fun _ => wraps x s state) (fun s inside => wraps x s inside)
    (fun i s _ inside => turned _ s inside) fun s inside => turned _ s inside

/-- A turn of its own: it stops, or answers a turn of the worker below. -/
theorem onTop_eq_turn {op : Operator X ι κ} {below : Act Work σ ι} {wrap : X → σ → τ} {x : X}
    {s : σ} {t' : Turn τ κ} (turned : op.onTop below wrap x s = .turn t') :
    (op.gate x = true ∧ t' = .ret none (wrap x s)) ∨
      (op.gate x = false ∧ ∃ t, below = .turn t ∧ t' = op.react wrap x t) := by
  rw [onTop] at turned
  cases gated : op.gate x with
  | true =>
      rw [if_pos gated] at turned
      cases turned
      exact .inl ⟨rfl, rfl⟩
  | false =>
      rw [if_neg (by simp [gated])] at turned
      exact .inr ⟨rfl, Act.map_eq_turn turned⟩

/-- It asks for the next work when the worker below does. -/
theorem onTop_eq_nextWork {op : Operator X ι κ} {below : Act Work σ ι} {wrap : X → σ → τ}
    {x : X} {s : σ} {k' : Option Work → Turn τ κ}
    (turned : op.onTop below wrap x s = .nextWork k') :
    op.gate x = false ∧ ∃ k, below = .nextWork k ∧ k' = fun work => op.react wrap x (k work) := by
  rw [onTop] at turned
  cases gated : op.gate x with
  | true =>
      rw [if_pos gated] at turned
      cases turned
  | false =>
      rw [if_neg (by simp [gated])] at turned
      exact ⟨rfl, Act.map_eq_nextWork turned⟩

/-- An operator that answers the end with none returns none when the worker below does. -/
theorem quits_onTop {op : Operator X ι κ} {below : Act Work σ ι} {wrap : X → σ → τ} {x : X}
    {s : σ} (last : ∃ y, op.last x = .ret none y)
    (quits : ∀ k, below = .nextWork k → ∃ s, k none = .ret none s) {k' : Option Work → Turn τ κ}
    (asks : op.onTop below wrap x s = .nextWork k') : ∃ s, k' none = .ret none s := by
  obtain ⟨_, k, asked, rfl⟩ := onTop_eq_nextWork asks
  obtain ⟨s', ends⟩ := quits k asked
  obtain ⟨y, answers⟩ := last
  refine ⟨wrap y s', ?_⟩
  simp only [ends, react, answers]
  rfl

/-- The state and the items after the operator has been fed a list of items. -/
def feed : X → List ι → Option (X × List κ)
  | x, [] => some (x, [])
  | x, i :: rest =>
      if op.gate x then some (x, [])
      else
        match op.item x i with
        | .again x => feed x rest
        | .ret (some k) x => (feed x rest).map fun fed => (fed.1, k :: fed.2)
        | _ => none

/-- The items that are left to return at the end. -/
def close (x : X) : Option (List κ) :=
  if op.gate x then some []
  else
    match op.last x with
    | .ret none _ => some []
    | .ret (some k) x => if op.gate x then some [k] else none
    | _ => none

/-- **What the operator makes of a list of items.** -/
def result (x : X) (items : List ι) : Option (List κ) :=
  (op.feed x items).bind fun fed => (op.close fed.1).map fun tail => fed.2 ++ tail

variable {op}

theorem feed_of_gate {x : X} (gated : op.gate x = true) (items : List ι) :
    op.feed x items = some (x, []) := by
  cases items with
  | nil => rfl
  | cons i rest => rw [feed, if_pos gated]

/-- Feeding goes on where it has stopped. -/
theorem feed_append {x y : X} {items more : List ι} {out : List κ}
    (fed : op.feed x items = some (y, out)) :
    op.feed x (items ++ more) = (op.feed y more).map fun fed => (fed.1, out ++ fed.2) := by
  induction items generalizing x out with
  | nil =>
      cases fed
      simp
  | cons i rest ih =>
      rw [feed] at fed
      rw [List.cons_append, feed]
      split at fed
      · rename_i gated
        cases fed
        rw [if_pos gated]
        cases more with
        | nil => rfl
        | cons j more => simp [feed, gated]
      · rename_i going
        rw [if_neg going]
        cases answer : op.item x i with
        | again x' =>
            rw [answer] at fed
            exact ih fed
        | ret k x' =>
            rw [answer] at fed
            cases k with
            | none => cases fed
            | some k =>
                obtain ⟨⟨y', out'⟩, later, same⟩ := Option.map_eq_some_iff.mp fed
                cases same
                simp only [ih later, Option.map_map]
                rfl
        | panic =>
            rw [answer] at fed
            cases fed

/-- What an operator makes goes on where it has stopped. -/
theorem result_append {x y : X} {items : List ι} {out : List κ}
    (fed : op.feed x items = some (y, out)) (more : List ι) :
    op.result x (items ++ more) = (op.result y more).map (out ++ ·) := by
  rw [result, feed_append fed, Option.bind_map, result, Option.map_bind]
  congr 1
  funext fed
  simp only [Function.comp_apply, Option.map_map, List.append_assoc]
  rfl

/-- What is fed in the middle of a result: it begins the result, and the operator
can be fed the rest. -/
theorem feed_of_result {x : X} {items more : List ι} {all : List κ}
    (defined : op.result x (items ++ more) = some all) :
    ∃ y out, op.feed x items = some (y, out) ∧ out <+: all := by
  induction items generalizing x all with
  | nil => exact ⟨x, [], rfl, List.nil_prefix⟩
  | cons i rest ih =>
      rw [result, List.cons_append, feed] at defined
      rw [feed]
      split at defined
      · rename_i gated
        rw [if_pos gated]
        exact ⟨x, [], rfl, List.nil_prefix⟩
      · rename_i going
        rw [if_neg going]
        cases answer : op.item x i with
        | again x' =>
            rw [answer] at defined
            exact ih defined
        | ret k x' =>
            rw [answer] at defined
            cases k with
            | none => cases defined
            | some k =>
                simp only [Option.bind_map] at defined
                obtain ⟨⟨y, out⟩, fed, closes⟩ := Option.bind_eq_some_iff.mp defined
                obtain ⟨tail, closed, rfl⟩ := Option.map_eq_some_iff.mp closes
                have later : op.result x' (rest ++ more) = some (out ++ tail) := by
                  simp [result, fed, closed]
                obtain ⟨y', out', fed', begins⟩ := ih later
                exact ⟨y', k :: out', by simp [fed'], by simpa using begins⟩
        | panic =>
            rw [answer] at defined
            cases defined

/-- An operator without a state that answers every item with an item or by pulling again. -/
theorem result_eq_filterMap {op : Operator Unit ι κ} {g : ι → Option κ} {items : List ι}
    (gate : ∀ x, op.gate x = false) (last : op.last () = .ret none ())
    (item : ∀ i ∈ items, op.item () i =
      match g i with
      | some k => .ret (some k) ()
      | none => .again ()) :
    op.result () items = some (items.filterMap g) := by
  have close : op.close () = some [] := by simp [Operator.close, gate, last]
  have fed : op.feed () items = some ((), items.filterMap g) := by
    induction items with
    | nil => rfl
    | cons i rest ih =>
        have fedRest := ih fun j member => item j (by simp [member])
        rw [feed, if_neg (by simp [gate]), item i (by simp)]
        cases answer : g i with
        | some k => simp [fedRest, answer]
        | none => simp [fedRest, answer]
  rw [result, fed, Option.bind_some, close, Option.map_some, List.append_nil]

theorem result_of_gate {x : X} (gated : op.gate x = true) (items : List ι) :
    op.result x items = some [] := by
  rw [result, feed_of_gate gated, Option.bind_some, close, if_pos gated]
  rfl

/-- An answer is returned before all that is made of the other items. -/
theorem result_cons {x y : X} {i : ι} {k : κ} (going : op.gate x = false)
    (answer : op.item x i = .ret (some k) y) (rest : List ι) :
    op.result x (i :: rest) = (op.result y rest).map (k :: ·) := by
  rw [result, feed, if_neg (by simp [going]), answer, Option.bind_map, result, Option.map_bind]
  congr 1
  funext fed
  simp only [Function.comp_apply, Option.map_map]
  rfl

/-- **The rule for what an operator makes.** Let an invariant say that the operator can go on with
the items that are left, and how much it has taken in and not yet returned. An answer has some
property, and is not heavier than that. Then the operator makes something of the items; all of
it has the property, and it does not weigh more than the items and what was inside before. -/
theorem exists_result {I : Nat → List ι → X → Prop} {K : κ → Prop} {weight : ι → Nat}
    {weight' : κ → Nat}
    (item : ∀ inside i rest x, I inside (i :: rest) x → op.gate x = false →
      (∃ y, op.item x i = .again y ∧ I (inside + weight i) rest y) ∨
        ∃ k y left, op.item x i = .ret (some k) y ∧ K k ∧ I left rest y ∧
          weight' k + left ≤ inside + weight i)
    (last : ∀ inside x, I inside [] x → op.gate x = false →
      (∃ y, op.last x = .ret none y) ∨
        ∃ k y, op.last x = .ret (some k) y ∧ K k ∧ op.gate y = true ∧ weight' k ≤ inside)
    {inside : Nat} {items : List ι} {x : X} (start : I inside items x) :
    ∃ all, op.result x items = some all ∧ (∀ k ∈ all, K k) ∧
      (all.map weight').sum ≤ inside + (items.map weight).sum := by
  induction items generalizing inside x with
  | nil =>
      cases gated : op.gate x with
      | true => exact ⟨[], result_of_gate gated _, by simp, Nat.zero_le _⟩
      | false =>
          rw [result, feed, Option.bind_some, close, if_neg (by simp [gated])]
          rcases last inside x start gated with ⟨y, answer⟩ | ⟨k, y, answer, kind, ended, light⟩
          · rw [answer]
            exact ⟨[], rfl, by simp, Nat.zero_le _⟩
          · rw [answer]
            exact ⟨[k], by simp [ended], by simpa using kind, by simpa using light⟩
  | cons i rest ih =>
      cases gated : op.gate x with
      | true => exact ⟨[], result_of_gate gated _, by simp, Nat.zero_le _⟩
      | false =>
          rw [List.map_cons, List.sum_cons]
          rcases item inside i rest x start gated with ⟨y, answer, onwards⟩ |
            ⟨k, y, left, answer, kind, onwards, light⟩
          · obtain ⟨all, made, kinds, less⟩ := ih onwards
            refine ⟨all, ?_, kinds, by omega⟩
            rw [result, feed, if_neg (by simp [gated]), answer]
            exact made
          · obtain ⟨all, made, kinds, less⟩ := ih onwards
            refine ⟨k :: all, by rw [result_cons gated answer, made, Option.map_some],
              List.forall_mem_cons.mpr ⟨kind, kinds⟩, ?_⟩
            rw [List.map_cons, List.sum_cons]
            omega

end Operator

/-! ## Lists that agree up to an item -/

/-- The other items are these, or go their own way from an item on that has the property. -/
def AgreesUntil (bad : ι → Prop) (items items' : List ι) : Prop :=
  items' = items ∨ ∃ before i rest rest', bad i ∧ items = before ++ i :: rest ∧
    items' = before ++ rest'

namespace AgreesUntil

variable {bad : ι → Prop} {items items' items'' : List ι}

theorem refl (items : List ι) : AgreesUntil bad items items := .inl rfl

theorem trans (first : AgreesUntil bad items items') (second : AgreesUntil bad items' items'') :
    AgreesUntil bad items items'' := by
  rcases first with rfl | ⟨before, i, rest, rest', isBad, rfl, rfl⟩
  · exact second
  · rcases second with rfl | ⟨before', j, later, later', isBad', split, rfl⟩
    · exact .inr ⟨before, i, rest, rest', isBad, rfl, rfl⟩
    · -- whichever of the two items comes first
      rcases List.append_eq_append_iff.mp split with ⟨more, rfl, _⟩ | ⟨more, rfl, same⟩
      · exact .inr ⟨before, i, rest, more ++ later', isBad, rfl, List.append_assoc _ _ _⟩
      · cases more with
        | nil => exact .inr ⟨before', i, rest, later', isBad, by simp, rfl⟩
        | cons k more =>
            cases same
            exact .inr ⟨before', j, more ++ i :: rest, later', isBad', by simp, rfl⟩

theorem append (before : List ι) (agrees : AgreesUntil bad items items') :
    AgreesUntil bad (before ++ items) (before ++ items') := by
  rcases agrees with rfl | ⟨between, i, rest, rest', isBad, rfl, rfl⟩
  · exact .refl _
  · exact .inr ⟨before ++ between, i, rest, rest', isBad, by simp, by simp⟩

/-- Items with the property can be left out. -/
theorem drop {extra : List ι} (allBad : ∀ i ∈ extra, bad i)
    (agrees : AgreesUntil bad items items') : AgreesUntil bad (extra ++ items) items' := by
  cases extra with
  | nil => exact agrees
  | cons i more => exact .inr ⟨[], i, more ++ items, items', allBad i (by simp), rfl, rfl⟩

/-- An operator that hands on the items with the property makes lists that agree of lists that
agree. -/
theorem result {op : Operator X ι κ} {bad' : κ → Prop} {x : X} {made made' : List κ}
    (passes : ∀ x i, bad i → ∃ k y, op.item x i = .ret (some k) y ∧ bad' k)
    (agrees : AgreesUntil bad items items') (makes : op.result x items = some made)
    (makes' : op.result x items' = some made') : AgreesUntil bad' made made' := by
  rcases agrees with rfl | ⟨before, i, rest, rest', isBad, rfl, rfl⟩
  · exact .inl (Option.some.inj (makes'.symm.trans makes))
  · obtain ⟨y, out, fed, _⟩ := Operator.feed_of_result makes
    obtain ⟨later, onwards, rfl⟩ := Option.map_eq_some_iff.mp (Operator.result_append fed _ ▸ makes)
    obtain ⟨later', onwards', rfl⟩ :=
      Option.map_eq_some_iff.mp (Operator.result_append fed _ ▸ makes')
    refine append out ?_
    cases gated : op.gate y with
    | true =>
        rw [Operator.result_of_gate gated] at onwards onwards'
        exact .inl (Option.some.inj (onwards'.symm.trans onwards))
    | false =>
        obtain ⟨k, z, answer, isBad'⟩ := passes y i isBad
        rw [Operator.result_cons gated answer] at onwards
        obtain ⟨after, _, rfl⟩ := Option.map_eq_some_iff.mp onwards
        exact .inr ⟨[], k, after, later', isBad', rfl, rfl⟩

end AgreesUntil

/-! ## Operators deliver -/

/-- A run of an operator, explained by a run of the worker below. -/
inductive Follows (op : Operator X ι κ) (act : σ → Act Work σ ι) (wrap : X → σ → τ) (x₀ : X)
    (start : σ) : Nat → List Work → Bool → List κ → Phase τ κ → Prop where
  | pulling {n handed exhausted items s x sent}
      (runs : Runs act start n handed exhausted items (.running s))
      (fed : op.feed x₀ items = some (x, sent)) :
      Follows op act wrap x₀ start n handed exhausted sent (.running (wrap x s))
  | passing {n handed exhausted items s x sent k}
      (runs : Runs act start n handed exhausted items (.running s))
      (fed : op.feed x₀ items = some (x, sent ++ [k])) :
      Follows op act wrap x₀ start n handed exhausted sent (.sending k (wrap x s))
  | stopped {n handed exhausted items s x sent}
      (runs : Runs act start n handed exhausted items (.running s))
      (fed : op.feed x₀ items = some (x, sent)) (gated : op.gate x = true) :
      Follows op act wrap x₀ start (n + 1) handed exhausted sent .finished
  | closing {n handed exhausted items s x sent k}
      (runs : Runs act start n handed exhausted items .finished)
      (made : op.result x₀ items = some (sent ++ [k])) (gated : op.gate x = true) :
      Follows op act wrap x₀ start n handed exhausted sent (.sending k (wrap x s))
  | closed {n handed exhausted items s x sent}
      (runs : Runs act start n handed exhausted items .finished)
      (made : op.result x₀ items = some sent) (gated : op.gate x = true) :
      Follows op act wrap x₀ start n handed exhausted sent (.running (wrap x s))
  | ended {n m handed exhausted items sent}
      (runs : Runs act start m handed exhausted items .finished)
      (made : op.result x₀ items = some sent) (later : n ≤ m + 1) :
      Follows op act wrap x₀ start n handed exhausted sent .finished

section Delivers

variable {op : Operator X ι κ} {act : σ → Act Work σ ι} {start : σ} {works : List Work}
  {items : List Work → List ι} {base : Nat} {weight : Work → Nat} {wrap : X → σ → τ} {x₀ : X}
  {act' : τ → Act Work τ κ}

/-- The operator's answer to a turn of the worker below. -/
theorem Follows.react (delivers : Delivers act start works items base weight)
    (defined : ∀ handed, handed.Sublist works → ∃ all, op.result x₀ (items handed) = some all)
    {n : Nat} {handed : List Work} {exhausted : Bool} {pulled : List ι} {x : X} {sent : List κ}
    {t : Turn σ ι} (part : handed.Sublist works)
    (runs : Runs act start n handed exhausted pulled t.phase)
    (fed : op.feed x₀ pulled = some (x, sent)) (going : op.gate x = false) :
    Follows op act wrap x₀ start n handed exhausted sent (op.react wrap x t).phase := by
  obtain ⟨all, made⟩ := defined handed part
  match t with
  | .again s => exact .pulling runs fed
  | .panic => exact (delivers.safe part runs).elim
  | .ret (some i) s =>
      obtain ⟨rest, whole⟩ := delivers.begun part runs
      have whole : pulled ++ [i] ++ rest = items handed := whole
      rw [← whole] at made
      obtain ⟨y, out, fed', _⟩ := Operator.feed_of_result made
      have next : op.feed x₀ (pulled ++ [i]) = _ := Operator.feed_append fed
      rw [fed'] at next
      simp only [Operator.feed, going, Bool.false_eq_true, if_false] at next
      simp only [Operator.react]
      cases answer : op.item x i with
      | again x' =>
          rw [answer] at next
          exact .pulling runs.sent (by simpa [fed'] using next)
      | ret k x' =>
          rw [answer] at next
          cases k with
          | none => cases next
          | some k => exact .passing runs.sent (by simpa [fed'] using next)
      | panic =>
          rw [answer] at next
          cases next
  | .ret none s =>
      have whole := delivers.complete part runs
      rw [← whole, Operator.result, fed, Option.bind_some] at made
      obtain ⟨tail, closes, rfl⟩ := Option.map_eq_some_iff.mp made
      have made' : op.result x₀ pulled = some (sent ++ tail) := by
        simp [Operator.result, fed, closes]
      simp only [Operator.close, going, Bool.false_eq_true, if_false] at closes
      simp only [Operator.react]
      cases answer : op.last x with
      | again x' =>
          rw [answer] at closes
          cases closes
      | ret k x' =>
          rw [answer] at closes
          cases k with
          | none =>
              cases closes
              exact .ended runs (by simpa using made') (Nat.le_succ n)
          | some k =>
              simp only at closes
              split at closes
              · rename_i gated
                cases closes
                exact .closing runs made' gated
              · cases closes
      | panic =>
          rw [answer] at closes
          cases closes

/-- **Runs of an operator follow runs of the worker below.** -/
theorem follows_of_runs (delivers : Delivers act start works items base weight)
    (defined : ∀ handed, handed.Sublist works → ∃ all, op.result x₀ (items handed) = some all)
    (acts : ∀ x s, act' (wrap x s) = op.onTop (act s) wrap x s) {n : Nat} {handed : List Work}
    {exhausted : Bool} {sent : List κ} {phase : Phase τ κ} (part : handed.Sublist works)
    (runs : Runs act' (wrap x₀ start) n handed exhausted sent phase) :
    Follows op act wrap x₀ start n handed exhausted sent phase := by
  induction runs with
  | start => exact .pulling .start rfl
  | turn before turned ih =>
      cases ih part with
      | pulling runs fed =>
          rw [acts] at turned
          rcases Operator.onTop_eq_turn turned with ⟨gated, rfl⟩ | ⟨going, t, below, rfl⟩
          · exact .stopped runs fed gated
          · exact Follows.react delivers defined part (runs.turn below) fed going
      | closed runs made gated =>
          rw [acts, Operator.onTop, if_pos gated] at turned
          cases turned
          exact .ended runs made (Nat.le_refl _)
  | handed before turned work ih =>
      cases ih ((List.sublist_append_left _ _).trans part) with
      | pulling runs fed =>
          rw [acts] at turned
          obtain ⟨going, k, below, rfl⟩ := Operator.onTop_eq_nextWork turned
          exact Follows.react delivers defined part (runs.handed below work) fed going
      | closed runs made gated =>
          rw [acts, Operator.onTop, if_pos gated] at turned
          cases turned
  | exhausted before turned ih =>
      cases ih part with
      | pulling runs fed =>
          rw [acts] at turned
          obtain ⟨going, k, below, rfl⟩ := Operator.onTop_eq_nextWork turned
          exact Follows.react delivers defined part (runs.exhausted below) fed going
      | closed runs made gated =>
          rw [acts, Operator.onTop, if_pos gated] at turned
          cases turned
  | sent before ih =>
      cases ih part with
      | passing runs fed => exact .pulling runs fed
      | closing runs made gated => exact .closed runs made gated

/-- **An operator delivers its result** on what the worker below delivers. -/
theorem Delivers.operator {made : List Work → List κ}
    (delivers : Delivers act start works items base weight)
    (makes : ∀ handed, handed.Sublist works → op.result x₀ (items handed) = some (made handed))
    (acts : ∀ x s, act' (wrap x s) = op.onTop (act s) wrap x s) :
    Delivers act' (wrap x₀ start) works made (base + 1) weight := by
  have follows {n : Nat} {handed : List Work} {exhausted : Bool} {sent : List κ}
      {phase : Phase τ κ} (part : handed.Sublist works)
      (runs : Runs act' (wrap x₀ start) n handed exhausted sent phase) :=
    follows_of_runs delivers (fun handed part => ⟨_, makes handed part⟩) acts part runs
  -- what has been made of a beginning of the items begins the result
  have begun {n : Nat} {handed : List Work} {exhausted : Bool} {pulled : List ι}
      {phase : Phase σ ι} {y : X} {out : List κ} (part : handed.Sublist works)
      (runs : Runs act start n handed exhausted pulled phase)
      (fed : op.feed x₀ pulled = some (y, out)) : out <+: made handed := by
    obtain ⟨rest, whole⟩ := delivers.begun part runs
    have result := makes handed part
    rw [← whole, List.append_assoc] at result
    obtain ⟨y', out', fed', begins⟩ := Operator.feed_of_result result
    rw [fed] at fed'
    cases fed'
    exact begins
  have whole {n : Nat} {handed : List Work} {exhausted : Bool} {pulled : List ι} {all : List κ}
      (part : handed.Sublist works) (runs : Runs act start n handed exhausted pulled .finished)
      (result : op.result x₀ pulled = some all) : all = made handed := by
    rw [delivers.complete part runs, makes handed part] at result
    exact (Option.some.inj result).symm
  constructor
  · intro n handed exhausted sent part runs
    cases follows part runs
  · intro n handed exhausted sent phase part runs
    cases follows part runs with
    | pulling below fed => simpa [Phase.pending] using begun part below fed
    | passing below fed => simpa [Phase.pending] using begun part below fed
    | stopped below fed _ => simpa [Phase.pending] using begun part below fed
    | closing below result _ => simp [Phase.pending, whole part below result]
    | closed below result _ => simp [Phase.pending, whole part below result]
    | ended below result _ => simp [Phase.pending, whole part below result]
  · intro n handed exhausted sent part runs
    cases follows part runs with
    | ended below result _ => exact whole part below result
    | stopped below fed gated =>
        -- a stopped operator makes nothing of the items it does not pull
        obtain ⟨rest, all⟩ := delivers.begun part below
        have result := makes handed part
        rw [← all, List.append_assoc, Operator.result, Operator.feed_append fed,
          Operator.feed_of_gate gated] at result
        simpa [Operator.close, gated] using result
  · intro n handed exhausted sent phase part runs
    rw [Nat.add_right_comm]
    cases follows part runs with
    | pulling below _ => exact Nat.le_succ_of_le (delivers.bounded part below)
    | passing below _ => exact Nat.le_succ_of_le (delivers.bounded part below)
    | stopped below _ _ => exact Nat.succ_le_succ (delivers.bounded part below)
    | closing below _ _ => exact Nat.le_succ_of_le (delivers.bounded part below)
    | closed below _ _ => exact Nat.le_succ_of_le (delivers.bounded part below)
    | ended below _ later => exact later.trans (Nat.succ_le_succ (delivers.bounded part below))

/-- An operator finishes when the worker below does, or when it stops. -/
theorem exhausted_or_stopped {made : List Work → List κ}
    (delivers : Delivers act start works items base weight)
    (makes : ∀ handed, handed.Sublist works → op.result x₀ (items handed) = some (made handed))
    (acts : ∀ x s, act' (wrap x s) = op.onTop (act s) wrap x s)
    (exhausts : Exhausts act start works) {n : Nat} {handed : List Work} {exhausted : Bool}
    {sent : List κ} (part : handed.Sublist works)
    (runs : Runs act' (wrap x₀ start) n handed exhausted sent .finished) :
    exhausted = true ∨ ∃ pulled y, op.feed x₀ pulled = some (y, sent) ∧ op.gate y = true := by
  cases follows_of_runs delivers (fun handed part => ⟨_, makes handed part⟩) acts part runs with
  | stopped below fed gated => exact .inr ⟨_, _, fed, gated⟩
  | ended below _ _ => exact .inl (exhausts part below)

/-- An operator that pulls all items finishes only when the worker below does. -/
theorem Exhausts.operator {made : List Work → List κ}
    (delivers : Delivers act start works items base weight)
    (makes : ∀ handed, handed.Sublist works → op.result x₀ (items handed) = some (made handed))
    (acts : ∀ x s, act' (wrap x s) = op.onTop (act s) wrap x s)
    (pulls : ∀ pulled y out, op.feed x₀ pulled = some (y, out) → op.gate y = false)
    (exhausts : Exhausts act start works) : Exhausts act' (wrap x₀ start) works := by
  intro n handed exhausted sent part runs
  rcases exhausted_or_stopped delivers makes acts exhausts part runs with
    yes | ⟨pulled, y, fed, gated⟩
  · exact yes
  · rw [pulls _ _ _ fed] at gated
    cases gated

end Delivers

/-! ## Workers under another name -/

section Rename

variable {act : σ → Act Work σ ι} {start : σ} {works : List Work} {act' : τ → Act Work τ ι}
  {name : σ → τ}

/-- The phase of a worker under another name. -/
def Phase.map (f : σ → τ) : Phase σ ι → Phase τ ι
  | running s => running (f s)
  | sending item s => sending item (f s)
  | finished => finished
  | crashed => crashed

theorem phase_map (f : σ → τ) (t : Turn σ ι) : (t.map f).phase = t.phase.map f := by
  match t with
  | .again _ | .ret (some _) _ | .ret none _ | .panic => rfl

theorem Phase.map_eq_running {f : σ → τ} {phase : Phase σ ι} {s' : τ}
    (same : Phase.running s' = phase.map f) : ∃ s, phase = .running s ∧ s' = f s := by
  cases phase with
  | running s =>
      cases same
      exact ⟨s, rfl, rfl⟩
  | sending item s => cases same
  | finished => cases same
  | crashed => cases same

theorem Phase.map_eq_sending {f : σ → τ} {phase : Phase σ ι} {item : ι} {s' : τ}
    (same : Phase.sending item s' = phase.map f) : ∃ s, phase = .sending item s ∧ s' = f s := by
  cases phase with
  | sending item s =>
      cases same
      exact ⟨s, rfl, rfl⟩
  | running s => cases same
  | finished => cases same
  | crashed => cases same

/-- A worker under another name runs as it does under its own. -/
theorem runs_of_rename (acts : ∀ s, act' (name s) = (act s).map (Turn.map name)) {n : Nat}
    {handed : List Work} {exhausted : Bool} {sent : List ι} {phase' : Phase τ ι}
    (runs : Runs act' (name start) n handed exhausted sent phase') :
    ∃ phase, phase' = phase.map name ∧ Runs act start n handed exhausted sent phase := by
  induction runs with
  | start => exact ⟨_, rfl, .start⟩
  | turn _ turned ih =>
      obtain ⟨phase, same, runs⟩ := ih
      obtain ⟨s, rfl, rfl⟩ := Phase.map_eq_running same
      rw [acts] at turned
      obtain ⟨t, below, rfl⟩ := Act.map_eq_turn turned
      exact ⟨_, phase_map name t, runs.turn below⟩
  | handed _ turned work ih =>
      obtain ⟨phase, same, runs⟩ := ih
      obtain ⟨s, rfl, rfl⟩ := Phase.map_eq_running same
      rw [acts] at turned
      obtain ⟨k, below, rfl⟩ := Act.map_eq_nextWork turned
      exact ⟨_, phase_map name _, runs.handed below work⟩
  | exhausted _ turned ih =>
      obtain ⟨phase, same, runs⟩ := ih
      obtain ⟨s, rfl, rfl⟩ := Phase.map_eq_running same
      rw [acts] at turned
      obtain ⟨k, below, rfl⟩ := Act.map_eq_nextWork turned
      exact ⟨_, phase_map name _, runs.exhausted below⟩
  | sent _ ih =>
      obtain ⟨phase, same, runs⟩ := ih
      obtain ⟨s, rfl, rfl⟩ := Phase.map_eq_sending same
      exact ⟨.running s, rfl, runs.sent⟩

theorem Delivers.rename {items : List Work → List ι} {base : Nat} {weight : Work → Nat}
    (delivers : Delivers act start works items base weight)
    (acts : ∀ s, act' (name s) = (act s).map (Turn.map name)) :
    Delivers act' (name start) works items base weight := by
  constructor
  · intro n handed exhausted sent part runs
    obtain ⟨phase, same, below⟩ := runs_of_rename acts runs
    cases phase with
    | crashed => exact delivers.safe part below
    | running s => cases same
    | sending item s => cases same
    | finished => cases same
  · intro n handed exhausted sent phase' part runs
    obtain ⟨phase, rfl, below⟩ := runs_of_rename acts runs
    have pending : (phase.map name).pending = phase.pending := by cases phase <;> rfl
    exact pending ▸ delivers.begun part below
  · intro n handed exhausted sent part runs
    obtain ⟨phase, same, below⟩ := runs_of_rename acts runs
    cases phase with
    | finished => exact delivers.complete part below
    | running s => cases same
    | sending item s => cases same
    | crashed => cases same
  · intro n handed exhausted sent phase' part runs
    obtain ⟨phase, _, below⟩ := runs_of_rename acts runs
    exact delivers.bounded part below

theorem Exhausts.rename (exhausts : Exhausts act start works)
    (acts : ∀ s, act' (name s) = (act s).map (Turn.map name)) :
    Exhausts act' (name start) works := by
  intro n handed exhausted sent part runs
  obtain ⟨phase, same, below⟩ := runs_of_rename acts runs
  cases phase with
  | finished => exact exhausts part below
  | running s => cases same
  | sending item s => cases same
  | crashed => cases same

end Rename

/-! ## A worker executed alone -/

/-- The items from a turn on, given those from the next turn on. -/
def Turn.collect (next : σ → Option (List ι)) : Turn σ ι → Option (List ι)
  | again s => next s
  | ret (some item) s => (next s).map (item :: ·)
  | ret none _ => some []
  | panic => none

/-- Let a worker run alone on a list of works until it is finished, and collect its
items. The fuel bounds its turns. -/
def collect (act : σ → Act Work σ ι) : Nat → σ → List Work → Option (List ι)
  | 0, _, _ => none
  | fuel + 1, s, works =>
      match act s with
      | .turn t => t.collect fun s => collect act fuel s works
      | .nextWork k => (k works.head?).collect fun s => collect act fuel s works.tail

/-- More turns make no difference to a worker that is finished. -/
theorem collect_mono {act : σ → Act Work σ ι} {fuel more : Nat} (enough : fuel ≤ more) {s : σ}
    {works : List Work} {items : List ι} (done : collect act fuel s works = some items) :
    collect act more s works = some items := by
  induction fuel generalizing more s works items with
  | zero => cases done
  | succ fuel ih =>
      obtain ⟨more, rfl⟩ := Nat.exists_eq_succ_of_ne_zero (by omega : more ≠ 0)
      have turn : ∀ (t : Turn σ ι) (works : List Work) (items : List ι),
          t.collect (fun s => collect act fuel s works) = some items →
            t.collect (fun s => collect act more s works) = some items := by
        intro t works items collected
        match t with
        | .again s => exact ih (Nat.le_of_succ_le_succ enough) collected
        | .ret none s => exact collected
        | .ret (some item) s =>
            obtain ⟨rest, here, rfl⟩ := Option.map_eq_some_iff.mp collected
            exact Option.map_eq_some_iff.mpr ⟨rest, ih (Nat.le_of_succ_le_succ enough) here, rfl⟩
        | .panic => exact collected
      rw [collect] at done ⊢
      cases acts : act s with
      | turn t =>
          rw [acts] at done
          exact turn t works items done
      | nextWork k =>
          rw [acts] at done
          exact turn (k works.head?) works.tail items done

/-- **A worker alone returns its result** on the works, if it has turns enough. -/
theorem collect_eq {act : σ → Act Work σ ι} {start : σ} {works : List Work}
    {items : List Work → List ι} {base : Nat} {weight : Work → Nat}
    (delivers : Delivers act start works items base weight) (exhausts : Exhausts act start works)
    {fuel : Nat} (enough : base + (works.map weight).sum < fuel) :
    collect act fuel start works = some (items works) := by
  suffices onwards : ∀ (fuel n : Nat) (handed left : List Work) (exhausted : Bool)
      (sent : List ι) (s : σ), Runs act start n handed exhausted sent (.running s) →
      handed ++ left = works → (exhausted = true → left = []) →
      base + (works.map weight).sum < n + fuel →
      ∃ rest, collect act fuel s left = some rest ∧ sent ++ rest = items works by
    obtain ⟨rest, collected, all⟩ :=
      onwards fuel 0 [] works false [] start .start rfl nofun (by omega)
    rw [collected, ← all, List.nil_append]
  intro fuel
  induction fuel with
  | zero =>
      intro n handed left exhausted sent s runs split _ enough
      have part : handed.Sublist works := split ▸ List.sublist_append_left _ _
      have bound := delivers.bounded part runs
      have shorter : (handed.map weight).sum ≤ (works.map weight).sum := by
        rw [← split, List.map_append, List.sum_append]
        exact Nat.le_add_right _ _
      omega
  | succ fuel ih =>
      -- one turn, after which the worker has the works that are left
      have turn : ∀ (n : Nat) (handed left : List Work) (exhausted : Bool) (sent : List ι)
          (t : Turn σ ι), Runs act start (n + 1) handed exhausted sent t.phase →
          handed ++ left = works → (exhausted = true → left = []) →
          base + (works.map weight).sum < n + (fuel + 1) →
          ∃ rest, t.collect (fun s => collect act fuel s left) = some rest ∧
            sent ++ rest = items works := by
        intro n handed left exhausted sent t runs split told enough
        have part : handed.Sublist works := split ▸ List.sublist_append_left _ _
        match t with
        | .again s => exact ih _ _ _ _ _ _ runs split told (by omega)
        | .ret (some item) s =>
            obtain ⟨rest, collected, all⟩ := ih _ _ _ _ _ _ runs.sent split told (by omega)
            exact ⟨item :: rest, by simp [Turn.collect, collected], by simpa using all⟩
        | .ret none s =>
            have done := told (exhausts part runs)
            rw [done, List.append_nil] at split
            exact ⟨[], rfl, by rw [List.append_nil, delivers.complete part runs, split]⟩
        | .panic => exact (delivers.safe part runs).elim
      intro n handed left exhausted sent s runs split told enough
      rw [collect]
      cases acts : act s with
      | turn t => exact turn n handed left exhausted sent t (runs.turn acts) split told enough
      | nextWork k =>
          cases left with
          | nil =>
              exact turn n handed [] true sent (k none) (runs.exhausted acts) split
                (fun _ => rfl) enough
          | cons work rest =>
              have never : exhausted = false := by
                cases exhausted with
                | false => rfl
                | true => cases told rfl
              subst never
              exact turn n (handed ++ [work]) rest false sent (k (some work))
                (runs.handed acts work) (by simpa using split) nofun enough

/-- **A worker alone stops, or asks for another work** when it has been handed all of these. -/
theorem exists_stop {act : σ → Act Work σ ι} {start : σ} {works : List Work}
    {items : List Work → List ι} {base : Nat} {weight : Work → Nat}
    (delivers : Delivers act start works items base weight) :
    ∃ n handed sent phase, handed <+: works ∧ Runs act start n handed false sent phase ∧
      (phase = .finished ∨
        handed = works ∧ ∃ s k, phase = .running s ∧ act s = .nextWork k) := by
  suffices onwards : ∀ (fuel n : Nat) (handed left : List Work) (sent : List ι) (s : σ),
      Runs act start n handed false sent (.running s) → handed ++ left = works →
      base + (works.map weight).sum < n + fuel →
      ∃ n handed sent phase, handed <+: works ∧ Runs act start n handed false sent phase ∧
        (phase = .finished ∨
          handed = works ∧ ∃ s k, phase = .running s ∧ act s = .nextWork k) from
    onwards (base + (works.map weight).sum + 1) 0 [] works [] start .start rfl (by omega)
  intro fuel
  induction fuel with
  | zero =>
      intro n handed left sent s runs split enough
      have part : handed.Sublist works := split ▸ List.sublist_append_left _ _
      have bound := delivers.bounded part runs
      have shorter : (handed.map weight).sum ≤ (works.map weight).sum := by
        rw [← split, List.map_append, List.sum_append]
        exact Nat.le_add_right _ _
      omega
  | succ fuel ih =>
      have turn : ∀ (n : Nat) (handed left : List Work) (sent : List ι) (t : Turn σ ι),
          Runs act start (n + 1) handed false sent t.phase → handed ++ left = works →
          base + (works.map weight).sum < n + (fuel + 1) →
          ∃ n handed sent phase, handed <+: works ∧ Runs act start n handed false sent phase ∧
            (phase = .finished ∨
              handed = works ∧ ∃ s k, phase = .running s ∧ act s = .nextWork k) := by
        intro n handed left sent t runs split enough
        match t with
        | .again s => exact ih _ _ _ _ _ runs split (by omega)
        | .ret (some item) s => exact ih _ _ _ _ _ runs.sent split (by omega)
        | .ret none s =>
            exact ⟨n + 1, handed, sent, _, ⟨left, split⟩, runs, .inl rfl⟩
        | .panic =>
            exact (delivers.safe (split ▸ List.sublist_append_left _ _) runs).elim
      intro n handed left sent s runs split enough
      cases acts : act s with
      | turn t => exact turn n handed left sent t (runs.turn acts) split enough
      | nextWork k =>
          cases left with
          | nil =>
              rw [List.append_nil] at split
              exact ⟨n, handed, sent, _, split ▸ List.prefix_rfl, runs,
                .inr ⟨split, s, k, rfl, acts⟩⟩
          | cons work rest =>
              exact turn n (handed ++ [work]) rest sent (k (some work)) (runs.handed acts work)
                (by simpa using split) enough

/-- **A worker that has been handed all works asks for another**, if that is how it finds out
that there are no more. -/
theorem exists_asking {act : σ → Act Work σ ι} {start : σ} {works : List Work}
    {items : List Work → List ι} {base : Nat} {weight : Work → Nat}
    (delivers : Delivers act start works items base weight)
    (exhausts : Exhausts act start works) :
    ∃ n sent s k, Runs act start n works false sent (.running s) ∧ act s = .nextWork k := by
  obtain ⟨n, handed, sent, phase, part, runs, stops⟩ := exists_stop delivers
  rcases stops with rfl | ⟨rfl, s, k, rfl, acts⟩
  · cases exhausts part.sublist runs
  · exact ⟨n, sent, s, k, runs, acts⟩

/-! ## Calls, one after the other -/

/-- The answers of a child to its next calls, and its state after them. The child answers a
call by `pull`. -/
def answers (pull : σ → Option ι × σ) : Nat → σ → List (Option ι) × σ
  | 0, s => ([], s)
  | k + 1, s =>
      let later := answers pull k (pull s).2
      ((pull s).1 :: later.1, later.2)

namespace Operator

/-- A call of the operator on top of such a child: the turn it takes on top of a worker that
answers so. -/
def call (op : Operator X ι κ) (pull : σ → Option ι × σ) (x : X) (s : σ) : Turn (X × σ) κ :=
  if op.gate x then .ret none (x, s) else op.react Prod.mk x (.ret (pull s).1 (pull s).2)

/-- The answers of the operator to its next calls, and the state after them, if it pulls at
most once in each of them. -/
def calls (op : Operator X ι κ) (pull : σ → Option ι × σ) :
    Nat → X × σ → Option (List (Option κ) × (X × σ))
  | 0, state => some ([], state)
  | k + 1, state =>
      match op.call pull state.1 state.2 with
      | .ret answer state =>
          (calls op pull k state).map fun later => (answer :: later.1, later.2)
      | _ => none

variable {op : Operator X ι κ} {pull : σ → Option ι × σ}

theorem calls_succ {x : X} {s : σ} {answer : Option κ} {state : X × σ}
    (returns : op.call pull x s = .ret answer state) (k : Nat) :
    op.calls pull (k + 1) (x, s) =
      (op.calls pull k state).map fun later => (answer :: later.1, later.2) := by
  rw [calls, returns]

/-- An operator that has stopped stays where it is, and its child too. -/
theorem calls_of_gate {x : X} (gated : op.gate x = true) (s : σ) (k : Nat) :
    op.calls pull k (x, s) = some (List.replicate k none, (x, s)) := by
  have returns : op.call pull x s = .ret none (x, s) := by rw [call, if_pos gated]
  induction k with
  | zero => rfl
  | succ k ih => rw [calls_succ returns, ih, Option.map_some, List.replicate_succ]

/-- Later calls go on where the earlier ones have stopped. -/
theorem calls_add (k m : Nat) (state : X × σ) :
    op.calls pull (k + m) state = (op.calls pull k state).bind fun first =>
      (op.calls pull m first.2).map fun later => (first.1 ++ later.1, later.2) := by
  induction k generalizing state with
  | zero => simp [calls]
  | succ k ih =>
      obtain ⟨x, s⟩ := state
      rw [Nat.succ_add]
      cases answer : op.call pull x s with
      | ret answered state =>
          rw [calls_succ answer, calls_succ answer, ih, Option.map_bind, Option.bind_map]
          congr 1
          funext first
          simp only [Function.comp_apply, Option.map_map]
          rfl
      | again state => simp [calls, answer]
      | panic => simp [calls, answer]

end Operator

end TinyOlap.Library.WorkPool
