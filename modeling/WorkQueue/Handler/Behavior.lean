/-!
# What a handler does

A run of a handler is a sequence of steps that ends with an outcome: it may sleep, wait for the
cancellation token, fire the token, and fail a given number of times before it works. A run goes on
until it ends or has to wait.

## Main definitions

* `Behavior`: the steps of a run
* `Behavior.run`: go on to the end or to the next wait
* `Paused.resume?`: go on behind a wait that is over
-/

namespace WorkQueue

/-- Why a handler did not complete. -/
inductive HandlerError where
  /-- The task failed and may be tried again. -/
  | failed (text : String)
  /-- The handler saw the cancellation token fire and stopped. -/
  | canceled
  deriving DecidableEq, Repr

/-- The wording of a handler's error. -/
def HandlerError.message : HandlerError → String
  | failed text => text
  | canceled => "canceled"

/-- How a run of a handler ended. -/
inductive HandlerEnd where
  | returned (outcome : Except HandlerError Unit)
  | panicked

instance : Inhabited HandlerEnd := ⟨.panicked⟩

/-- The steps of a run of a handler. -/
inductive Behavior where
  | finish (ending : HandlerEnd)
  /-- Sleep for some milliseconds. -/
  | sleep (ms : Nat) (next : Behavior)
  /-- Wait until the token has fired. -/
  | awaitCancel (next : Behavior)
  | fireCancel (next : Behavior)
  /-- Fail as long as the named counter, raised by one, does not exceed `failures`. -/
  | flaky (counter : String) (failures : Nat) (next : Behavior)
  deriving Inhabited

/-- How often each named step has been taken. -/
abbrev Counters := List (String × Nat)

namespace Counters

/-- The count of a name. -/
def get (c : Counters) (name : String) : Nat := (c.lookup name).getD 0

/-- Raise the count of a name by one. -/
def bump (name : String) : Counters → Counters
  | [] => [(name, 1)]
  | (k, n) :: rest => if k = name then (k, n + 1) :: rest else (k, n) :: bump name rest

end Counters

/-- What a run of a handler shares with others: the token and the counters. -/
structure Surroundings where
  /-- Has the cancellation token fired? -/
  fired : Bool
  counters : Counters
  deriving Inhabited

/-- What a run waits for. -/
inductive Wait where
  | clock (time : Nat)
  | token
  deriving DecidableEq, Repr, Inhabited

/-- A run that waits, and the steps behind the wait. -/
structure Paused where
  wait : Wait
  next : Behavior
  deriving Inhabited

/-- Where a run stands once it has gone on as far as it can. -/
inductive Progress where
  | ended (ending : HandlerEnd)
  | paused (paused : Paused)

/-- Go on at time `now` until the run ends or has to wait. -/
def Behavior.run (now : Nat) : Behavior → Surroundings → Progress × Surroundings
  | finish ending, s => (.ended ending, s)
  | sleep ms next, s => if ms = 0 then next.run now s else (.paused ⟨.clock (now + ms), next⟩, s)
  | awaitCancel next, s => if s.fired then next.run now s else (.paused ⟨.token, next⟩, s)
  | fireCancel next, s => next.run now { s with fired := true }
  | flaky counter failures next, s =>
    let s := { s with counters := Counters.bump counter s.counters }
    let count := s.counters.get counter
    if count ≤ failures then
      (.ended (.returned (.error (.failed ("flaky " ++ toString count)))), s)
    else next.run now s

/-- Is the wait over? -/
def Wait.over (now : Nat) (fired : Bool) : Wait → Bool
  | clock time => time ≤ now
  | token => fired

/-- Go on behind a wait, if it is over. -/
def Paused.resume? (now : Nat) (p : Paused) (s : Surroundings) : Option (Progress × Surroundings) :=
  if p.wait.over now s.fired then some (p.next.run now s) else none

/-- When a wait ends by itself. -/
def Wait.due? : Wait → Option Nat
  | clock time => some time
  | token => none

end WorkQueue
