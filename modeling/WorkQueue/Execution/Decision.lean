import WorkQueue.Handler.Registry

/-!
# What becomes of a dispatched task

A failed task is tried again while its counter is below the limit. A payload that no handler can
read is given up at once; a handler that saw the token fire asks for its task to be canceled.
-/

namespace WorkQueue

/-- What to do with a dispatched task. -/
inductive Decision where
  | succeed
  /-- Publish it again to the delayed topic, its counter raised. -/
  | retry
  /-- Out of retries: put it to the dead-letter topic, if there is one, and release it. -/
  | exhausted
  /-- Release it without another try. -/
  | skip
  | cancel
  deriving DecidableEq, Repr

namespace Decision

/-- Another try while `attempts` is below the limit. -/
def retryOrExhaust (attempts limit : Nat) : Decision :=
  if attempts ≥ limit then exhausted else retry

/-- The decision on a task from what its dispatch came to; `attempts` is the retry counter of the
envelope that ran. -/
def ofOutcome (outcome : Except DispatchError Unit) (attempts limit : Nat) : Decision :=
  match outcome with
  | .ok () => succeed
  | .error e =>
    if e.isCanceled then cancel
    else match e with
      | .invalidPayload .. => skip
      | _ => retryOrExhaust attempts limit

/-- A task may ask to be canceled only once the token has fired; before that it has failed. -/
def underToken (decision : Decision) (fired : Bool) (attempts limit : Nat) : Decision :=
  if decision = cancel ∧ ¬ fired then retryOrExhaust attempts limit else decision

end Decision

end WorkQueue
