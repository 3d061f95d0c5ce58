import WorkQueue.Backoff.Policy

/-!
# Trying again

An operation is tried until it succeeds, until its policy or its time budget is used up, or until
it is canceled between two attempts. The decision behind one failed attempt is `Retry.wait?`; the
loop around it is `Retry.run`, over any operation that takes time.

Time is counted in nanoseconds from the start; a wait ends on a whole millisecond.

## Main definitions

* `Retry.wait?`: the wait before the next attempt, if there is one
* `Retry.run`: the loop
-/

namespace WorkQueue

/-- Why trying again ended without success. -/
inductive RetryError (ε : Type) where
  /-- All attempts failed, or the next wait would overrun the budget. -/
  | exhausted (attempts : Nat) (last : ε)
  /-- Canceled between two attempts. -/
  | canceled
  deriving DecidableEq, Repr

namespace Retry

/-- Attempts that are made at most: at least one. -/
def attemptsAllowed (policy : Policy) : Nat := max policy.attemptLimit 1

/-- The wait behind failed attempt `attempt`, when `elapsed` has gone by since the first one
began: none if the policy allows no further attempt or the wait would run over the budget. -/
def wait? (policy : Policy) (budget : Duration) (jitter : Jitter) (attempt : Nat)
    (elapsed : Duration) : Option Duration :=
  if attempt < attemptsAllowed policy then
    match policy.delay? attempt with
    | some delay =>
      let wait := jitter attempt delay
      -- the budget counts the wait in, so the last attempt begins within it
      if elapsed.nanos + wait.nanos ≤ budget.nanos then some wait else none
    | none => none
  else none

/-- What an attempt came to: its result and the time at which it was there. -/
structure Attempt (ε α : Type) where
  result : Except ε α
  finished : Nat
  /-- The time at which cancellation fired, as far as it is known by now. -/
  fired : Option Nat

/-- Does cancellation end a wait until `wake`? It does if it has fired already or fires earlier. -/
def Attempt.firedBefore {ε α : Type} (a : Attempt ε α) (wake : Nat) : Bool :=
  match a.fired with
  | some t => t ≤ a.finished || t < wake
  | none => false

/-- When is a wait from `now` over? Timers fire on whole milliseconds. -/
def wakeUp (now : Nat) (wait : Duration) : Nat :=
  now + wait.timerMillis * Duration.nanosPerMilli

/-- Try an operation from `now` on, with at most `left` attempts behind the next one. Operation
`op attempt now s` runs one attempt in state `s`; `started` is the time of the first attempt. -/
def loop {ε α σ : Type} (policy : Policy) (budget : Duration) (jitter : Jitter)
    (op : Nat → Nat → σ → Attempt ε α × σ) (started : Nat) :
    (left : Nat) → (attempt now : Nat) → σ → Except (RetryError ε) α × σ
  | left, attempt, now, s =>
    let (a, s) := op attempt now s
    match a.result with
    | .ok v => (.ok v, s)
    | .error e =>
      match left, wait? policy budget jitter attempt ⟨a.finished - started⟩ with
      | left + 1, some wait =>
        let wake := wakeUp a.finished wait
        if a.firedBefore wake then (.error .canceled, s)
        else loop policy budget jitter op started left (attempt + 1) wake s
      | _, _ => (.error (.exhausted attempt e), s)

/-- Try an operation from time `now` on, following a policy between failures. -/
def run {ε α σ : Type} (policy : Policy) (budget : Duration) (jitter : Jitter)
    (op : Nat → Nat → σ → Attempt ε α × σ) (now : Nat) (s : σ) : Except (RetryError ε) α × σ :=
  loop policy budget jitter op now (attemptsAllowed policy - 1) 1 now s

end Retry

end WorkQueue
