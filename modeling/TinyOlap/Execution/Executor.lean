import TinyOlap.Arrow.RecordBatch
import TinyOlap.Library.Pipeline
import TinyOlap.Storage.Files

/-!
# Operators at work

An operator is asked for its next batch again and again. It returns a batch or an error,
or none at the end; it may also panic. Operators run inside workers, so a call is a
sequence of turns, in which the scan at the bottom asks for the next part.
-/

set_option autoImplicit false

namespace TinyOlap.Execution

open Library Library.WorkPool Arrow Storage

inductive ExecutionError where
  | io (e : IoError)
  | invalidData (message : String)
  | arrow (e : ArrowError)
deriving DecidableEq

abbrev ExecResult (α : Type) : Type := Outcome ExecutionError α

/-- What an operator returns before the end. -/
abbrev BatchResult : Type := Except ExecutionError RecordBatch

/-- Return from `next_batch` with the result of a computation. -/
def Turn.returning {σ : Type} (s : σ) : ExecResult RecordBatch → Turn σ BatchResult
  | .ok b => .ret (some (.ok b)) s
  | .err e => .ret (some (.error e)) s
  | .panic => .panic

end TinyOlap.Execution
