import WorkQueue.Execution.Basic
import WorkQueue.Intake.Loops
import WorkQueue.Ledger.Basic

/-!
# Task queues

A queue consumes its primary and its delayed topic. Each run of it joins the group twice, once per
topic, and then consists of processes that share its ledger: the two intake loops, the loop that
takes deliveries off the channel, and one task for every record in execution. The ledger and the
handlers' counters outlive a run.

## Main definitions

* `Queue`: a queue between and during runs
* `Run`, `Dequeue`, `Task`: one run and its processes
* `Scene`: a cluster, a queue and one of its runs, which is what a process acts on
-/

namespace WorkQueue

/-- Why a run ended before it began. -/
inductive QueueError where
  | config (cause : ConfigError)
  | broker (cause : BrokerError)
  deriving DecidableEq, Repr

/-- The wording of a queue error. -/
def QueueError.message : QueueError → String
  | config cause => "invalid configuration: " ++ cause.message
  | broker cause => "broker error: " ++ cause.message

/-- How a run ended. -/
inductive RunEnd where
  | stopped
  | failed (error : QueueError)
  /-- Torn down from outside. -/
  | aborted
  deriving DecidableEq, Repr

/-- How a queue's recorder behaves. -/
inductive RecorderKind where
  /-- Takes note of nothing. -/
  | silent
  | working
  /-- Takes note, then fails. -/
  | failing
  /-- Takes note of an outcome, then panics. -/
  | panicking
  deriving DecidableEq, Repr

/-- What a recorder has been told. -/
inductive Report where
  | resolved (time : Nat) (resolution : Resolution)
  | committed (time consumer : Nat) (topic : String) (offsets : List (Int × Int))
  deriving DecidableEq, Repr

/-- Where the loop stands that takes deliveries off the channel. -/
inductive Dequeue where
  /-- Nothing has happened yet. -/
  | starting
  | receiving
  /-- An entry waits for a permit to be executed. -/
  | awaitingPermit (entry : Nat)
  /-- The receiver is gone; executions are awaited. -/
  | finishing
  /-- The intake loops are awaited. -/
  | closing
  | ended (outcome : RunEnd)
  deriving DecidableEq, Repr, Inhabited

/-- What a task is about to do. -/
inductive TaskStage where
  | executing (execution : Execution)
  | reporting (resolution : Resolution)
  | committing
  deriving Inhabited

/-- The task of one record in execution. -/
structure Task where
  entry : Nat
  stage : TaskStage
  deriving Inhabited

/-- One run of a queue. -/
structure Run where
  dequeue : Dequeue := .starting
  /-- The run's token has fired. -/
  fired : Bool := false
  primary : IntakeSettings := default
  delayed : IntakeSettings := default
  channel : Channel := { capacity := 0 }
  primaryLoop : Primary := .stopped
  delayedLoop : Delayed := { due := 0, phase := .stopped }
  tasks : List Task := []
  /-- Executions that may still be begun. -/
  permits : Nat := 0
  deriving Inhabited

/-- A task queue. -/
structure Queue where
  broker : Nat
  config : Config
  registry : Registry := []
  /-- The policy of publishing again, if it is not the standard one. -/
  policy : Option Policy := none
  recorder : RecorderKind := .working
  ledger : Ledger := {}
  counters : Counters := []
  reports : Array Report := #[]
  deriving Inhabited

/-- What a process of a run acts on. -/
structure Scene (σ : Type) where
  cluster : Cluster σ
  queue : Queue
  run : Run
  deriving Inhabited

namespace Run

/-- Have both intake loops stopped? -/
def intakeStopped (r : Run) : Bool := r.primaryLoop.hasStopped && r.delayedLoop.hasStopped

/-- The place of the run's consumer with a number. -/
def consumer? (r : Run) (id : Nat) : Option IntakeSettings :=
  if r.primary.consumer = id then some r.primary
  else if r.delayed.consumer = id then some r.delayed
  else none

/-- How the run ended, if it has. -/
def ended? (r : Run) : Option RunEnd :=
  match r.dequeue with
  | .ended outcome => some outcome
  | _ => none

/-- Was the run torn down? -/
def wasAborted (r : Run) : Bool := r.dequeue == .ended .aborted

end Run

namespace Queue

/-- A queue with the executor that its configuration gives it. -/
def executor (q : Queue) (jitter : Jitter) : Executor :=
  .ofConfig q.registry q.config q.policy jitter

/-- Add to what the recorder has been told. -/
def report (q : Queue) (r : Report) : Queue :=
  if q.recorder = .silent then q else { q with reports := q.reports.push r }

end Queue

end WorkQueue
