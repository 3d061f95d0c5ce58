import WorkQueue.Execution.Basic

/-!
# One execution on its own

A single execution is run to its end on a clock that does not move while it can go on and then
jumps to the next moment at which something happens: the end of its wait or the firing of the
token.

## Main definitions

* `Dispatch.run`: a dispatch without an execution around it
* `Execution.run`: a whole execution
-/

namespace WorkQueue

namespace Dispatch

/-- Run a handler to its end, jumping over its sleeps. A run that waits for a token that has not
fired never ends. -/
def finish : (fuel : Nat) → (now : Nat) → Progress × Surroundings → Option (HandlerEnd × Surroundings)
  | _, _, (.ended ending, s) => some (ending, s)
  | 0, _, _ => none
  | fuel + 1, now, (.paused p, s) =>
    let later := match p.wait with
      | .clock time => max now time
      | .token => now
    match p.resume? later s with
    | some state => finish fuel later state
    | none => none

/-- How many waits a run can hold. -/
def waits : Behavior → Nat
  | .finish _ => 0
  | .sleep _ next | .awaitCancel next => waits next + 1
  | .fireCancel next | .flaky _ _ next => waits next

/-- Dispatch an envelope: its outcome, the calls made, and what the handlers left behind. The
outcome is none if the handler never ends. -/
def run (r : Registry) (e : Envelope) (s : Surroundings) :
    Option (Except DispatchError Unit) × List (String × Json) × Surroundings :=
  match r.route e with
  | .error cause => (some (.error cause), [], s)
  | .ok (h, call) =>
    let calls := [(h.name, call.payload)]
    match finish (waits call.behavior) 0 (call.behavior.run 0 s) with
    | some (ending, s) => (some (ending.outcome h.name e.taskType), calls, s)
    | none => (none, calls, s)

end Dispatch

namespace Execution

variable {π : Type}

/-- Take steps at time `now` until the execution waits or has ended. -/
def advance (exe : Executor) (publish : Publish π) :
    (fuel : Nat) → (now : Nat) → Execution → Workbench π → Execution × Workbench π
  | 0, _, x, b => (x, b)
  | fuel + 1, now, x, b =>
    match x.step? exe now publish b with
    | some (x, b) => advance exe publish fuel now x b
    | none => (x, b)

/-- The next moment at which something happens to a waiting execution, if anything will. -/
def nextMoment? (x : Execution) (fires : Option Nat) (fired : Bool) : Option Nat :=
  match x.due?, if fired then none else fires with
  | some a, some b => some (min a b)
  | some a, none => some a
  | none, some b => some b
  | none, none => none

/-- How many waits the handler of a record can hold. -/
def handlerWaits (r : Registry) (record : Record) : Nat :=
  match Envelope.decode record.value with
  | .error _ => 0
  | .ok e =>
    match r.route e with
    | .error _ => 0
    | .ok (_, call) => Dispatch.waits call.behavior

/-- A bound on the steps of an execution: its start, the waits of the handler, one firing of the
token, and for every publish the publish itself and the end of the rest in front of it. -/
def stepBound (exe : Executor) (x : Execution) : Nat :=
  handlerWaits exe.registry x.record + 2 * Retry.attemptsAllowed exe.policy + 2

/-- Go on from time `now`, moment by moment. Each round takes the steps of one moment. -/
def rounds (exe : Executor) (publish : Publish π) (fires : Option Nat) :
    (fuel : Nat) → (now : Nat) → Execution → Workbench π → Nat × Execution × Workbench π
  | 0, now, x, b => (now, x, b)
  | fuel + 1, now, x, b =>
    let fired := b.surroundings.fired || (fires.map (decide <| · ≤ now)).getD false
    let b := { b with surroundings := { b.surroundings with fired } }
    let (x, b) := advance exe publish (x.stepBound exe) now x b
    match nextMoment? x fires b.surroundings.fired with
    | some later => rounds exe publish fires fuel (max later now) x b
    | none => (now, x, b)

/-- Run an execution from time `now` on; it ends at the time told. The token fires at `fires`, if it
has not fired before. -/
def run (exe : Executor) (publish : Publish π) (fires : Option Nat) (now : Nat) (x : Execution)
    (b : Workbench π) : Nat × Execution × Workbench π :=
  rounds exe publish fires (x.stepBound exe) now x b

end Execution

end WorkQueue
