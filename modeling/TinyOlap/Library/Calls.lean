import TinyOlap.Library.Pipeline

/-!
# Calls of a worker

A worker that is called by one thread, with a list of works of its own: a call takes turns until
one of them returns (`Returns`). It does not return if a turn panics. That every call returns,
whatever calls were made before (`CallsReturn`), is shown by an invariant of the states between
the calls (`CallsReturn.of_invariant`), and refuted at the first call that does not return.
-/

set_option autoImplicit false

namespace TinyOlap.Library.WorkPool

variable {Work σ τ ι : Type}

/-- The works that are left after a turn. -/
def Act.left : Act Work σ ι → List Work → List Work
  | turn _, works => works
  | nextWork _, works => works.tail

/-- **A call**: turns up to the first that returns. -/
inductive Returns (act : σ → Act Work σ ι) :
    σ → List Work → Option ι → σ → List Work → Prop where
  | now {s s' : σ} {works : List Work} {item : Option ι}
      (answer : (act s).answer works.head? = .ret item s') :
      Returns act s works item s' ((act s).left works)
  | later {s s' s'' : σ} {works works'' : List Work} {item : Option ι}
      (answer : (act s).answer works.head? = .again s')
      (rest : Returns act s' ((act s).left works) item s'' works'') :
      Returns act s works item s'' works''

/-- Calls, one after the other, and what they return. -/
inductive Calls (act : σ → Act Work σ ι) :
    σ → List Work → List (Option ι) → σ → List Work → Prop where
  | none {s : σ} {works : List Work} : Calls act s works [] s works
  | call {s s' s'' : σ} {works works' works'' : List Work} {item : Option ι}
      {items : List (Option ι)} (first : Returns act s works item s' works')
      (rest : Calls act s' works' items s'' works'') :
      Calls act s works (item :: items) s'' works''

/-- Whatever calls were made, the next one returns. -/
def CallsReturn (act : σ → Act Work σ ι) (s : σ) (works : List Work) : Prop :=
  ∀ items s' works', Calls act s works items s' works' →
    ∃ item s'' works'', Returns act s' works' item s'' works''

variable {act : σ → Act Work σ ι} {s s' s'' : σ} {works works' works'' : List Work}
  {item item' : Option ι}

/-- A turn of its own that returns. -/
theorem Returns.of_turn (acts : act s = .turn (.ret item s')) (works : List Work) :
    Returns act s works item s' works := by
  have returns := @Returns.now _ _ _ act s s' works item (by rw [acts]; rfl)
  rwa [acts] at returns

/-- The next work is asked for, and the answer is returned at once. -/
theorem Returns.of_nextWork {k : Option Work → Turn σ ι} (acts : act s = .nextWork k)
    (answer : k works.head? = .ret item s') : Returns act s works item s' works.tail := by
  have returns := @Returns.now _ _ _ act s s' works item (by rw [acts]; exact answer)
  rwa [acts] at returns

/-- A call has one outcome. -/
theorem Returns.unique (first : Returns act s works item s' works')
    (second : Returns act s works item' s'' works'') :
    item = item' ∧ s' = s'' ∧ works' = works'' := by
  induction first with
  | now answer =>
      cases second with
      | now answer' =>
          rw [answer] at answer'
          cases answer'
          exact ⟨rfl, rfl, rfl⟩
      | later answer' _ =>
          rw [answer] at answer'
          cases answer'
  | later answer _ ih =>
      cases second with
      | now answer' =>
          rw [answer] at answer'
          cases answer'
      | later answer' rest' =>
          rw [answer] at answer'
          cases answer'
          exact ih rest'

/-- A panic is not a return. -/
theorem not_returns_of_panic (answer : (act s).answer works.head? = .panic) :
    ¬ ∃ item s' works', Returns act s works item s' works' := by
  rintro ⟨item, s', works', returns⟩
  cases returns with
  | now answer' =>
      rw [answer] at answer'
      cases answer'
  | later answer' _ =>
      rw [answer] at answer'
      cases answer'

/-- A turn that goes on leaves the call to the next turn. -/
theorem returns_again_iff (answer : (act s).answer works.head? = .again s') :
    Returns act s works item s'' works'' ↔
      Returns act s' ((act s).left works) item s'' works'' := by
  constructor
  · intro returns
    cases returns with
    | now answer' =>
        rw [answer] at answer'
        cases answer'
    | later answer' rest =>
        rw [answer] at answer'
        cases answer'
        exact rest
  · exact .later answer

/-- **All calls return** if the first does and all after it do. -/
theorem callsReturn_iff (returns : Returns act s works item s' works') :
    CallsReturn act s works ↔ CallsReturn act s' works' := by
  constructor
  · exact fun all items t left calls => all _ t left (.call returns calls)
  · intro all items t left calls
    cases calls with
    | none => exact ⟨_, _, _, returns⟩
    | call first rest =>
        obtain ⟨rfl, rfl, rfl⟩ := returns.unique first
        exact all _ t left rest

theorem callsReturn_again_iff (answer : (act s).answer works.head? = .again s') :
    CallsReturn act s works ↔ CallsReturn act s' ((act s).left works) := by
  constructor
  · intro all
    obtain ⟨item, t, left, returns⟩ := all [] s works .none
    rw [callsReturn_iff returns] at all
    rwa [callsReturn_iff ((returns_again_iff answer).mp returns)]
  · intro all
    obtain ⟨item, t, left, returns⟩ := all [] s' _ .none
    rw [callsReturn_iff returns] at all
    rwa [callsReturn_iff ((returns_again_iff answer).mpr returns)]

/-- A call that does not return is one too many. -/
theorem not_callsReturn_of_panic (answer : (act s).answer works.head? = .panic) :
    ¬ CallsReturn act s works :=
  fun all => not_returns_of_panic answer (all [] s works .none)

/-- **Invariant rule**: every call returns, to a state with the invariant. -/
theorem CallsReturn.of_invariant {I : σ → List Work → Prop} (begins : I s works)
    (step : ∀ s works, I s works → ∃ item s' works', Returns act s works item s' works' ∧
      I s' works') : CallsReturn act s works := by
  intro items t left calls
  induction calls with
  | none =>
      obtain ⟨item, s', works', returns, _⟩ := step _ _ begins
      exact ⟨item, s', works', returns⟩
  | call first _ ih =>
      obtain ⟨item, s', works', returns, kept⟩ := step _ _ begins
      obtain ⟨rfl, rfl, rfl⟩ := returns.unique first
      exact ih kept

/-! ## Renaming -/

section Rename

variable {act' : τ → Act Work τ ι} {name : σ → τ}

/-- Calls of a worker under another name of its states. -/
theorem returns_rename (acts : ∀ s, act' (name s) = (act s).map (Turn.map name))
    (returns : Returns act s works item s' works') :
    Returns act' (name s) works item (name s') works' := by
  have left : ∀ (s : σ) (works : List Work), (act' (name s)).left works = (act s).left works := by
    intro s works
    rw [acts]
    cases act s <;> rfl
  induction returns with
  | @now s s' works item answer =>
      rw [← left]
      refine .now ?_
      rw [acts, Act.answer_map, answer]
      rfl
  | @later s s' s'' works works'' item answer _ ih =>
      rw [← left] at ih
      refine .later ?_ ih
      rw [acts, Act.answer_map, answer]
      rfl

theorem exists_of_returns_rename (acts : ∀ s, act' (name s) = (act s).map (Turn.map name))
    {t : τ} (returns : Returns act' (name s) works item t works') :
    ∃ s', t = name s' ∧ Returns act s works item s' works' := by
  have left : ∀ (s : σ) (works : List Work), (act' (name s)).left works = (act s).left works := by
    intro s works
    rw [acts]
    cases act s <;> rfl
  generalize named : name s = u at returns
  induction returns generalizing s with
  | now answer =>
      subst named
      rw [acts, Act.answer_map] at answer
      cases answered : (act s).answer _ with
      | again s' => rw [answered] at answer; cases answer
      | panic => rw [answered] at answer; cases answer
      | ret item s' =>
          rw [answered] at answer
          cases answer
          exact ⟨s', rfl, left s _ ▸ .now answered⟩
  | later answer _ ih =>
      subst named
      rw [acts, Act.answer_map] at answer
      cases answered : (act s).answer _ with
      | again s' =>
          rw [answered] at answer
          cases answer
          obtain ⟨s'', same, rest⟩ := ih rfl
          exact ⟨s'', same, .later answered (left s _ ▸ rest)⟩
      | panic => rw [answered] at answer; cases answer
      | ret item s' => rw [answered] at answer; cases answer

theorem calls_rename (acts : ∀ s, act' (name s) = (act s).map (Turn.map name))
    {items : List (Option ι)} (calls : Calls act s works items s' works') :
    Calls act' (name s) works items (name s') works' := by
  induction calls with
  | none => exact .none
  | call first _ ih => exact .call (returns_rename acts first) ih

theorem exists_of_calls_rename (acts : ∀ s, act' (name s) = (act s).map (Turn.map name))
    {items : List (Option ι)} {t : τ} (calls : Calls act' (name s) works items t works') :
    ∃ s', t = name s' ∧ Calls act s works items s' works' := by
  generalize named : name s = u at calls
  induction calls generalizing s with
  | none => exact ⟨s, named.symm, .none⟩
  | call first _ ih =>
      subst named
      obtain ⟨s', rfl, first'⟩ := exists_of_returns_rename acts first
      obtain ⟨s'', same, rest⟩ := ih rfl
      exact ⟨s'', same, .call first' rest⟩

/-- **Renaming the states makes no difference.** -/
theorem callsReturn_rename (acts : ∀ s, act' (name s) = (act s).map (Turn.map name)) :
    CallsReturn act' (name s) works ↔ CallsReturn act s works := by
  constructor
  · intro all items t left calls
    obtain ⟨item, u, left', returns⟩ := all items _ left (calls_rename acts calls)
    obtain ⟨s'', _, returns'⟩ := exists_of_returns_rename acts returns
    exact ⟨item, s'', left', returns'⟩
  · intro all items t left calls
    obtain ⟨s', rfl, calls'⟩ := exists_of_calls_rename acts calls
    obtain ⟨item, s'', left', returns⟩ := all items s' left calls'
    exact ⟨item, name s'', left', returns_rename acts returns⟩

end Rename

end TinyOlap.Library.WorkPool
