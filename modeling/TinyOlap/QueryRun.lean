import TinyOlap.Execution.GatherEnd
import TinyOlap.Main

/-!
# Queries on every schedule

A query is run by workers whose steps interleave in any way, so what it returns is said of all
schedules: each of them ends, on none of them does a worker panic, and what has been returned
in the end is Ok.
-/

set_option autoImplicit false

namespace TinyOlap

open Library Library.WorkPool Catalog Arrow Storage Frontend Physical Execution

variable {lz4 : Lz4} {schema : TableSchema} {query : Query} {tableDir : PartList} {workers : Nat}
  {P Q : List RecordBatch → Prop}

/-- What a query does on a table directory: it returns Ok under every schedule, with batches of
this kind, and without a panic of a worker. -/
def QueryYields (lz4 : Lz4) (schema : TableSchema) (query : Query) (tableDir : PartList)
    (workers : Nat) (P : List RecordBatch → Prop) : Prop :=
  ∃ root start, runSelect (.query query) schema tableDir = .ok root ∧
    GatherExec.new root.parts workers root.child = .ok start ∧
    (∃ bound, ∀ events g, start.run lz4 events = some g → .crashed ∉ g.workers ∧
      events.length ≤ bound ∧ (g.hungUp = false → ∃ event g', g.run lz4 [event] = some g')) ∧
    ∀ events g, start.run lz4 events = some g → g.hungUp = true →
      ∃ returned, root.returned g = some (.ok returned) ∧ P returned

theorem QueryYields.mono (yields : QueryYields lz4 schema query tableDir workers P)
    (weaker : ∀ returned, P returned → Q returned) :
    QueryYields lz4 schema query tableDir workers Q := by
  obtain ⟨root, start, ran, created, safe, returns⟩ := yields
  refine ⟨root, start, ran, created, safe, fun events g steps hungUp => ?_⟩
  obtain ⟨returned, same, kind⟩ := returns events g steps hungUp
  exact ⟨returned, same, weaker returned kind⟩

/-- A schedule that can always go on, and not forever, comes to its end. -/
theorem exists_hungUp {start : GatherExec} {bound : Nat}
    (safe : ∀ events g, start.run lz4 events = some g → events.length ≤ bound ∧
      (g.hungUp = false → ∃ event g', g.run lz4 [event] = some g')) {events : List Event}
    {g : GatherExec} (ran : start.run lz4 events = some g) :
    ∃ more g', start.run lz4 (events ++ more) = some g' ∧ g'.hungUp = true := by
  induction left : bound - events.length using Nat.strongRecOn generalizing events g with
  | ind left ih =>
      cases going : g.hungUp with
      | true => exact ⟨[], g, by rwa [List.append_nil], going⟩
      | false =>
          obtain ⟨event, next, steps⟩ := (safe events g ran).2 going
          have longer : start.run lz4 (events ++ [event]) = some next := by
            rw [GatherExec.run, run_append]
            exact Option.bind_eq_some_iff.mpr ⟨g, ran, steps⟩
          have short := (safe _ next longer).1
          rw [List.length_append, List.length_singleton] at short
          obtain ⟨more, g', completed, ended⟩ := ih (bound - (events ++ [event]).length) (by
            rw [← left, List.length_append, List.length_singleton]
            omega) longer rfl
          exact ⟨event :: more, g', by simpa using completed, ended⟩

/-- A query that yields something has a schedule on which it does. -/
theorem QueryYields.exists_returned (yields : QueryYields lz4 schema query tableDir workers P) :
    ∃ root g returned, runSelect (.query query) schema tableDir = .ok root ∧
      root.returned g = some (.ok returned) ∧ P returned := by
  obtain ⟨root, start, ran, _, ⟨bound, safe⟩, returns⟩ := yields
  obtain ⟨events, g, steps, hungUp⟩ := exists_hungUp (fun events g steps =>
    (safe events g steps).2) (rfl : start.run lz4 [] = some start)
  obtain ⟨returned, same, kind⟩ := returns _ g steps hungUp
  exact ⟨root, g, returned, ran, same, kind⟩

end TinyOlap
