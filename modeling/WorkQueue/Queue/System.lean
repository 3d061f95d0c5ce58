import WorkQueue.Queue.Step

/-!
# Queues side by side

A system is a cluster and the queues that work on it, each with all its runs. What can happen to it
is a `Move`: a process takes a step, time passes, a run is started, canceled or torn down, or
somebody else uses the cluster. Any sequence of moves is a history of the system.

The schedule that answers are taken from is one such sequence: time stands still while a process can
take a step, and then jumps to the next moment at which one goes on by itself.

## Main definitions

* `System`, `Move`, `System.move?`
* `System.settle`, `System.advance`, `System.await`: the schedule
-/

namespace WorkQueue

/-- A queue with its runs, the last one being the latest. -/
structure Slot where
  queue : Queue
  runs : Array Run := #[]
  deriving Inhabited

/-- A cluster with queues. -/
structure System (σ : Type) where
  cluster : Cluster σ
  slots : Array Slot
  jitter : Jitter := Jitter.middle
  deriving Inhabited

/-- A process of the system: queue, run, and process of the run. -/
structure ProcessId where
  queue : Nat
  run : Nat
  process : Scene.Process
  deriving DecidableEq, Repr

namespace System

variable {σ : Type}

/-! ## §1 Parts -/

/-- A queue of the system with one of its runs. -/
def scene? (sys : System σ) (queue run : Nat) : Option (Scene σ) :=
  match sys.slots[queue]? with
  | none => none
  | some slot =>
    match slot.runs[run]? with
    | none => none
    | some r => some ⟨sys.cluster, slot.queue, r⟩

/-- Put a queue and one of its runs back. -/
def restore (sys : System σ) (queue run : Nat) (s : Scene σ) : System σ :=
  { sys with
    cluster := s.cluster
    slots := sys.slots.modify queue fun slot =>
      { queue := s.queue, runs := slot.runs.setIfInBounds run s.run } }

/-- The number of the latest run of a queue. -/
def latest? (sys : System σ) (queue : Nat) : Option Nat :=
  match sys.slots[queue]? with
  | none => none
  | some slot => if slot.runs.isEmpty then none else some (slot.runs.size - 1)

/-- The latest run of a queue. -/
def latestRun? (sys : System σ) (queue : Nat) : Option Run :=
  match sys.slots[queue]? with
  | none => none
  | some slot => slot.runs.back?

/-- Change the latest run of a queue. -/
def onLatest (sys : System σ) (queue : Nat) (change : Scene σ → Scene σ) : System σ :=
  match sys.latest? queue with
  | none => sys
  | some run =>
    match sys.scene? queue run with
    | none => sys
    | some s => sys.restore queue run (change s)

/-! ## §2 Moves -/

/-- Begin a run of a queue. Nothing happens yet. -/
def start (sys : System σ) (queue : Nat) : System σ :=
  { sys with slots := sys.slots.modify queue fun slot => { slot with runs := slot.runs.push {} } }

/-- Fire the token of the latest run of a queue. -/
def cancel (sys : System σ) (queue : Nat) : System σ :=
  sys.onLatest queue fun s => { s with run := { s.run with fired := true } }

/-- Let time pass for the timers. -/
def pass (sys : System σ) (ms : Nat) : System σ :=
  { sys with cluster := { sys.cluster with now := sys.cluster.now + ms } }

variable [LogStore σ]

/-- One step of a process; `none` if it has to wait. -/
def step? (sys : System σ) (p : ProcessId) : Option (System σ) :=
  match sys.scene? p.queue p.run with
  | none => none
  | some s => (s.step? sys.jitter p.process).map (sys.restore p.queue p.run)

/-- Tear down the latest run of a queue. -/
def abort (sys : System σ) (queue : Nat) : System σ := sys.onLatest queue Scene.abort

/-- Run an operation on the cluster. -/
def onCluster {α : Type} (sys : System σ) (m : ClusterM σ α) :
    Except BrokerError α × System σ :=
  let (result, cluster) := m.on sys.cluster
  (result, { sys with cluster })

/-- Publish the first envelope of a task to a queue's primary topic. -/
def enqueue (sys : System σ) (queue : Nat) (taskType key : String) (payload : RawPayload) :
    Except EnqueueError (Int × Int) × System σ :=
  let q := ((sys.slots[queue]?).map (·.queue)).getD default
  let (result, cluster) :=
    Cluster.enqueue q.broker q.config.primaryTopic key taskType payload sys.cluster
  (result, { sys with cluster })

/-- Something that can happen to a system. -/
inductive Move (σ : Type) where
  | step (process : ProcessId)
  /-- Time passes: for the timers and for the memberships. -/
  | pass (timers memberships : Nat)
  | start (queue : Nat)
  | cancel (queue : Nat)
  | abort (queue : Nat)
  /-- Somebody uses the cluster. -/
  | outside (operation : ClusterM σ Unit)

/-- The system behind a move; `none` if the move is not possible. -/
def move? (sys : System σ) : Move σ → Option (System σ)
  | .step p => sys.step? p
  | .pass timers memberships =>
    let sys := sys.pass timers
    some { sys with cluster := { sys.cluster with wall := sys.cluster.wall + memberships } }
  | .start queue => some (sys.start queue)
  | .cancel queue => some (sys.cancel queue)
  | .abort queue => some (sys.abort queue)
  | .outside operation => some (sys.onCluster operation).2

/-! ## §3 The schedule -/

/-- All processes of a queue's run. -/
def processesOf (sys : System σ) (queue run : Nat) : List ProcessId :=
  match sys.scene? queue run with
  | none => []
  | some s => s.processes.map fun p => ⟨queue, run, p⟩

/-- All processes, in the order they are asked for a step. -/
def processes (sys : System σ) : List ProcessId :=
  (List.range sys.slots.size).flatMap fun queue =>
    (List.range ((sys.slots[queue]?.map (·.runs.size)).getD 0)).flatMap (sys.processesOf queue)

/-- Let one process go on until it has to wait. -/
def runProcess (p : ProcessId) : (fuel : Nat) → System σ → System σ
  | 0, sys => sys
  | fuel + 1, sys =>
    match sys.step? p with
    | some sys => runProcess p fuel sys
    | none => sys

/-- The first process that can take a step. -/
def ready? (sys : System σ) : Option ProcessId :=
  sys.processes.find? fun p => (sys.step? p).isSome

/-- Let processes go on until all have to wait. -/
def settle : (fuel : Nat) → System σ → System σ
  | 0, sys => sys
  | fuel + 1, sys =>
    match sys.ready? with
    | some p => settle fuel (runProcess p (fuel + 1) sys)
    | none => sys

/-- A moment in which more steps than this are possible is cut off. -/
def stepLimit : Nat := 1000000

/-- Let processes go on until all have to wait. -/
def rest (sys : System σ) : System σ := sys.settle stepLimit

/-- The next moment at which a process goes on by itself. -/
def nextDue? (sys : System σ) : Option Nat :=
  let dues := sys.slots.toList.flatMap fun slot =>
    slot.runs.toList.flatMap fun r => Scene.dues ⟨sys.cluster, slot.queue, r⟩
  (dues.filter (sys.cluster.now < ·)).min?

/-- Set the clock of the timers. -/
def setClock (sys : System σ) (time : Nat) : System σ :=
  { sys with cluster := { sys.cluster with now := time } }

/-- Let time pass up to `target`, moment by moment. What becomes possible at `target` itself is left
for later. -/
def passUntil (target : Nat) : (fuel : Nat) → System σ → System σ
  | 0, sys => sys
  | fuel + 1, sys =>
    if target ≤ sys.cluster.now then sys
    else
      let sys := sys.rest
      match sys.nextDue? with
      | none => sys.setClock target
      | some due =>
        if due < target then passUntil target fuel (sys.setClock due) else sys.setClock target

/-- Let some milliseconds pass. Between two moments lies at least one of them. -/
def advance (sys : System σ) (ms : Nat) : System σ :=
  sys.passUntil (sys.cluster.now + ms) (ms + 1)

/-- Let time pass until the latest run of a queue has ended, or nothing goes on any more. -/
def awaitEnd (queue : Nat) : (fuel : Nat) → System σ → System σ
  | 0, sys => sys
  | fuel + 1, sys =>
    let sys := sys.rest
    match sys.latestRun? queue with
    | none => sys
    | some r =>
      if r.ended?.isSome then sys
      else
        match sys.nextDue? with
        | some due => awaitEnd queue fuel (sys.setClock due)
        | none => sys

/-- Wait until the latest run of a queue has ended. Tells how. -/
def await (sys : System σ) (queue : Nat) : Option RunEnd × System σ :=
  let sys := awaitEnd queue stepLimit sys
  ((sys.latestRun? queue).bind (·.ended?), sys)

end System

end WorkQueue
