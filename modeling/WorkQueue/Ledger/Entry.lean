import WorkQueue.Record

/-!
# Ledger entries

An entry follows one consumed record from the moment it is queued. Terminal states are final: a
transition out of one is refused. All of them but `canceled` let the record be committed.
-/

namespace WorkQueue

/-- Execution state of a record. -/
inductive EntryState where
  | queued
  | executing
  /-- The handler completed. -/
  | success
  /-- Given up on; the record is released without being retried. -/
  | skipped
  /-- The handler failed and the task was published again for a later retry. -/
  | failure
  /-- Torn down before it was done. Never committed, so another consumer reads it again. -/
  | canceled
  deriving DecidableEq, Repr, Inhabited

namespace EntryState

/-- Has the execution ended? -/
def isTerminal : EntryState → Bool
  | queued | executing => false
  | success | skipped | failure | canceled => true

/-- May the record be committed? -/
def isCommittable : EntryState → Bool
  | success | skipped | failure => true
  | queued | executing | canceled => false

/-- The name of a state. -/
def name : EntryState → String
  | queued => "queued"
  | executing => "executing"
  | success => "success"
  | skipped => "skipped"
  | failure => "failure"
  | canceled => "canceled"

/-- The state behind an attempt to move to `next`. -/
def moveTo (next state : EntryState) : EntryState := if state.isTerminal then state else next

theorem isTerminal_of_isCommittable {s : EntryState} (h : s.isCommittable = true) :
    s.isTerminal = true := by
  cases s <;> simp_all [isCommittable, isTerminal]

/-- A terminal state is final. -/
@[simp] theorem moveTo_of_isTerminal {s : EntryState} (h : s.isTerminal = true)
    (next : EntryState) : moveTo next s = s := by
  simp [moveTo, h]

end EntryState

/-- A consumed record with the consumer that read it and the state of its execution. -/
structure Entry where
  consumer : Nat
  record : Record
  state : EntryState
  deriving Inhabited

end WorkQueue
