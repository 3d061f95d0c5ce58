import WorkQueue.Backoff.Retry
import WorkQueue.Config.Basic
import WorkQueue.Execution.Decision
import WorkQueue.Ledger.Entry

/-!
# Executing a record

An execution takes one record to a terminal state: the envelope is read and dispatched, and a
failed task is published again, to the delayed topic or, out of retries, to the dead-letter topic.
It goes on step by step. A step is taken at a time and in surroundings that others may have
changed since the last one: the token may have fired, and the time be later.

A handler that has ended keeps its outcome even if the token has fired in the meantime; one that
still waits when the token has fired is dropped, and its record is canceled.

## Main definitions

* `Executor`: what all executions of a queue have in common
* `Execution`, `Execution.step?`: one execution and its steps
* `Resolution`: what is reported about a finished execution
-/

namespace WorkQueue

/-- What became of a record. -/
structure Resolution where
  topic : String
  partition : Int
  offset : Int
  taskType : Option String
  executeCount : Nat
  state : EntryState
  error : Option String
  deriving DecidableEq, Repr, Inhabited

/-- What the executions of a queue have in common. -/
structure Executor where
  registry : Registry
  delayedTopic : String
  deadLetterTopic : Option String
  retryLimit : Nat
  policy : Policy
  budget : Duration
  jitter : Jitter

/-- The executor of a configuration. Publishing again follows `policy` if there is one. -/
def Executor.ofConfig (registry : Registry) (c : Config) (policy : Option Policy)
    (jitter : Jitter) : Executor where
  registry
  delayedTopic := c.delayedTopic
  deadLetterTopic := c.deadLetterTopic
  retryLimit := c.maxTaskRetries
  policy := policy.getD (.standard c.republishAttempts)
  budget := c.republishBudget
  jitter

/-- A task on its way to another topic. -/
structure Publication where
  topic : String
  key : String
  value : ByteArray
  /-- The state of the entry once the task has been published. -/
  delivered : EntryState
  /-- Why the task is published. -/
  error : Option String
  /-- The number of the next attempt. -/
  attempt : Nat
  /-- When the first attempt began. -/
  started : Nat
  deriving Inhabited

/-- Where an execution stands. -/
inductive Stage where
  /-- Not begun. -/
  | fresh
  /-- The handler waits. -/
  | handling (handler : String) (paused : Paused)
  /-- About to publish. -/
  | sending (publication : Publication)
  /-- Waiting to publish again. -/
  | resting (publication : Publication) (wake : Nat)
  /-- The entry is in a terminal state. -/
  | settled (error : Option String)
  deriving Inhabited

/-- The execution of one record. -/
structure Execution where
  record : Record
  state : EntryState
  /-- The task, once the record has been read. -/
  envelope : Option Envelope := none
  stage : Stage := .fresh
  deriving Inhabited

/-- What an execution works with: somewhere to publish to, the token, the counters of the
handlers, and a list of the calls made to them. -/
structure Workbench (π : Type) where
  producer : π
  surroundings : Surroundings
  calls : List (String × Json) := []

/-- How to publish: topic, key and value. -/
abbrev Publish (π : Type) :=
  String → String → ByteArray → π → Except BrokerError (Int × Int) × π

namespace Execution

/-- The execution of a record whose entry is in state `state`. -/
def start (record : Record) (state : EntryState) : Execution := { record, state }

/-! ## §1 Ends and decisions -/

/-- Move the entry to a terminal state. -/
def settle (x : Execution) (state : EntryState) (error : Option String) : Execution :=
  { x with state := EntryState.moveTo state x.state, stage := .settled error }

/-- The retry counter of the task. -/
def attempts (x : Execution) : Nat := (x.envelope.map Envelope.attempts).getD 0

/-- Begin to publish an envelope under the record's key. -/
def publish (x : Execution) (now : Nat) (topic : String) (e : Envelope) (delivered : EntryState)
    (error : Option String) : Execution :=
  let publication : Publication :=
    { topic, key := x.record.key, value := e.encode, delivered, error, attempt := 1, started := now }
  { x with stage := .sending publication }

/-- Do what a decision says with the envelope that was dispatched. -/
def carryOut (exe : Executor) (now : Nat) (x : Execution) (e : Envelope) (decision : Decision)
    (error : Option String) : Execution :=
  match decision with
  | .succeed => x.settle .success none
  | .cancel => x.settle .canceled error
  | .skip => x.settle .skipped error
  | .retry => x.publish now exe.delayedTopic e.nextAttempt .failure error
  | .exhausted =>
    match exe.deadLetterTopic with
    | none => x.settle .skipped error
    | some topic => x.publish now topic e .skipped error

/-- The text of an outcome's error. -/
def errorText : Except DispatchError Unit → Option String
  | .ok () => none
  | .error e => some e.message

/-- Go on from what the dispatch of an envelope came to. -/
def conclude (exe : Executor) (now : Nat) (fired : Bool) (x : Execution) (e : Envelope)
    (outcome : Except DispatchError Unit) : Execution :=
  let decision := Decision.ofOutcome outcome e.attempts exe.retryLimit
  let decision := decision.underToken fired e.attempts exe.retryLimit
  x.carryOut exe now e decision (errorText outcome)

/-- Go on from where a handler's run has got to. -/
def follow (exe : Executor) (now : Nat) (x : Execution) (e : Envelope) (handler : String)
    (progress : Progress) (fired : Bool) : Execution :=
  match progress with
  | .ended ending => x.conclude exe now fired e (ending.outcome handler e.taskType)
  | .paused p =>
    if fired then x.settle .canceled none else { x with stage := .handling handler p }

/-! ## §2 Steps -/

variable {π : Type}

/-- Read the record and dispatch the task. -/
def dispatch (exe : Executor) (now : Nat) (x : Execution) (b : Workbench π) :
    Execution × Workbench π :=
  -- a canceled entry stays canceled
  let x := { x with state := EntryState.moveTo .executing x.state }
  match Envelope.decode x.record.value with
  | .error e => (x.settle .skipped (some e.message), b)
  | .ok e =>
    let x := { x with envelope := some e }
    match exe.registry.route e with
    | .error cause => (x.conclude exe now b.surroundings.fired e (.error cause), b)
    | .ok (h, call) =>
      let (progress, s) := call.behavior.run now b.surroundings
      -- a handler may fire the token itself, so it is looked at behind the run
      (x.follow exe now e h.name progress s.fired,
        { b with surroundings := s, calls := b.calls ++ [(h.name, call.payload)] })

/-- Publish once. A failure is followed by a rest if the policy and the budget allow one. -/
def send (exe : Executor) (now : Nat) (publish : Publish π) (x : Execution) (p : Publication)
    (b : Workbench π) : Execution × Workbench π :=
  let (result, producer) := publish p.topic p.key p.value b.producer
  let b := { b with producer }
  match result with
  | .ok _ => (x.settle p.delivered p.error, b)
  | .error _ =>
    match Retry.wait? exe.policy exe.budget exe.jitter p.attempt (.ofMillis (now - p.started)) with
    -- given up, whatever it was to be published for
    | none => (x.settle .skipped p.error, b)
    | some wait =>
      ({ x with stage := .resting { p with attempt := p.attempt + 1 } (now + wait.timerMillis) }, b)

/-- One step of an execution at time `now`; `none` if it has to wait or has ended. -/
def step? (exe : Executor) (now : Nat) (publish : Publish π) (x : Execution) (b : Workbench π) :
    Option (Execution × Workbench π) :=
  match x.stage with
  | .fresh => some (x.dispatch exe now b)
  | .handling handler p =>
    match x.envelope, p.resume? now b.surroundings with
    | some e, some (progress, s) =>
      some (x.follow exe now e handler progress s.fired, { b with surroundings := s })
    | _, _ => if b.surroundings.fired then some (x.settle .canceled none, b) else none
  | .sending p => some (x.send exe now publish p b)
  | .resting p wake =>
    -- the token comes before the clock
    if b.surroundings.fired then some (x.settle .canceled p.error, b)
    else if wake ≤ now then some ({ x with stage := .sending p }, b)
    else none
  | .settled _ => none

/-- When an execution that waits goes on by itself. -/
def due? (x : Execution) : Option Nat :=
  match x.stage with
  | .handling _ p => p.wait.due?
  | .resting _ wake => some wake
  | _ => none

/-! ## §3 Reports -/

/-- What is reported about an execution that has ended. -/
def resolution? (x : Execution) : Option Resolution :=
  match x.stage with
  | .settled error => some {
      topic := x.record.topic
      partition := x.record.partition
      offset := x.record.offset
      taskType := x.envelope.map Envelope.taskType
      executeCount := x.attempts
      state := x.state
      error }
  | _ => none

end Execution

end WorkQueue
