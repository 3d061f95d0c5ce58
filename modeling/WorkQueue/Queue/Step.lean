import WorkQueue.Queue.Basic

/-!
# Steps of a run

Every process of a run goes on by steps. A step is what happens between two points at which the
process could be made to wait; it is `none` where it has to wait now. Nothing here says in which
order processes take their steps.

## Main definitions

* `Scene.commitPass`: commit what the ledger releases
* `Scene.dequeueStep?`, `Scene.primaryStep?`, `Scene.delayedStep?`, `Scene.taskStep?`
* `Scene.step?`: the step of any process
* `Scene.abort`: tear a run down
-/

namespace WorkQueue

namespace Scene

variable {σ : Type} [LogStore σ]

/-! ## §1 Commits -/

/-- Commit the offsets of one consumer, and report them if the broker takes all of them. Those of a
consumer of another run are passed over. -/
def commitFor (s : Scene σ) (group : Nat × List (Int × Int)) : Scene σ :=
  match s.run.consumer? group.1 with
  | none => s
  | some settings =>
    let (result, cluster) := (Cluster.commit settings.place group.2).on s.cluster
    match result with
    -- what the ledger has released stays released; a later pass commits further on
    | .error _ => { s with cluster }
    | .ok () =>
      let topic := match cluster.consumer? settings.place with
        | some k => k.topic
        | none => ""
      { s with cluster, queue := s.queue.report (.committed cluster.now group.1 topic group.2) }

/-- Release what the ledger may release, and commit it. -/
def commitPass (s : Scene σ) : Scene σ :=
  let (plan, ledger) := s.queue.ledger.collect
  if plan.isEmpty then s
  else plan.offsets.foldl commitFor { s with queue := { s.queue with ledger } }

/-! ## §2 The loop that takes deliveries -/

/-- Stop taking deliveries: what is in the channel is lost. -/
def stopReceiving (s : Scene σ) : Scene σ :=
  { s with run := { s.run with dequeue := .finishing, channel := s.run.channel.close } }

/-- Begin the execution of an entry. -/
def spawn (s : Scene σ) (entry : Nat) (record : Record) (state : EntryState) : Scene σ :=
  let task : Task := { entry, stage := .executing (.start record state) }
  { s with run :=
    { s.run with dequeue := .receiving, tasks := s.run.tasks ++ [task]
                 permits := s.run.permits - 1 } }

/-- Join the group for both topics and start the intake loops. -/
def launch (s : Scene σ) : Scene σ :=
  let fail (cluster : Cluster σ) (e : QueueError) : Scene σ :=
    { s with cluster, run := { s.run with dequeue := .ended (.failed e) } }
  let c := s.queue.config
  match c.validate with
  | .error e => fail s.cluster (.config e)
  | .ok () =>
    match (Cluster.subscribe s.queue.broker c.groupId c.primaryTopic).on s.cluster with
    | (.error e, cluster) => fail cluster (.broker e)
    | (.ok primary, cluster) =>
      match (Cluster.subscribe s.queue.broker c.groupId c.delayedTopic).on cluster with
      -- the first consumer does not stay behind
      | (.error e, cluster) => fail (cluster.close primary) (.broker e)
      | (.ok delayed, cluster) =>
        let settings (place : Nat) : IntakeSettings :=
          .ofConfig c place (((cluster.consumer? place).map (·.id)).getD 0)
        { s with cluster, run :=
          { s.run with
            dequeue := .receiving
            primary := settings primary
            delayed := settings delayed
            channel := { capacity := c.intakeCapacity }
            primaryLoop := .ready
            delayedLoop := .start cluster.now (settings delayed).period
            permits := c.maxParallelTasks } }

/-- Track a delivery; its entry then waits for a permit. A record that the ledger refuses is
ignored. -/
def accept (s : Scene σ) (d : Delivery) : Scene σ :=
  match s.queue.ledger.append d.consumer d.record with
  | .error _ => s
  | .ok (entry, ledger) =>
    { s with queue := { s.queue with ledger }
             run := { s.run with dequeue := .awaitingPermit entry } }

/-- The end of a run: a last commit pass, then both consumers leave their groups and the ledger
forgets what is left of them. -/
def conclude (s : Scene σ) : Scene σ :=
  -- commits go by the membership, so they come before leaving
  let s := s.commitPass
  let cluster := (s.cluster.close s.run.primary.place).close s.run.delayed.place
  let (_, ledger) := s.queue.ledger.forget s.run.primary.consumer
  let (_, ledger) := ledger.forget s.run.delayed.consumer
  { s with cluster, queue := { s.queue with ledger }
           run := { s.run with dequeue := .ended .stopped } }

/-- One step of the loop that takes deliveries. The token is looked at in front of the channel and
in front of the permits, so an entry may be canceled although there is a permit left. -/
def dequeueStep? (s : Scene σ) : Option (Scene σ) :=
  match s.run.dequeue with
  | .starting => some s.launch
  | .receiving =>
    if s.run.fired then some s.stopReceiving
    else
      match s.run.channel.take? with
      | some (d, channel) => some ({ s with run := { s.run with channel } }.accept d)
      | none => if s.run.intakeStopped then some s.stopReceiving else none
  | .awaitingPermit entry =>
    if s.run.fired then
      let (_, ledger) := s.queue.ledger.transition entry .canceled
      some ({ s with queue := { s.queue with ledger } } : Scene σ).stopReceiving
    else if s.run.permits > 0 then
      match s.queue.ledger.entry? entry with
      | some e => some (s.spawn entry e.record e.state)
      | none => some { s with run := { s.run with dequeue := .receiving } }
    else none
  | .finishing =>
    if s.run.tasks.isEmpty then some { s with run := { s.run with dequeue := .closing } } else none
  | .closing => if s.run.intakeStopped then some s.conclude else none
  | .ended _ => none

/-! ## §3 The intake loops -/

/-- In a run that was torn down, a consumer leaves its group once its loop has stopped. -/
def leaveIfAborted (s : Scene σ) (stopped : Bool) (place : Nat) : Scene σ :=
  if s.run.wasAborted && stopped then { s with cluster := s.cluster.close place } else s

/-- One step of the primary loop. -/
def primaryStep? (s : Scene σ) : Option (Scene σ) :=
  let feed : Feed σ := ⟨s.cluster, s.run.channel⟩
  (s.run.primaryLoop.step? s.run.primary s.run.fired feed).map fun (loop, feed) =>
    { s with cluster := feed.cluster
             run := { s.run with channel := feed.channel, primaryLoop := loop }
      : Scene σ }.leaveIfAborted loop.hasStopped s.run.primary.place

/-- One step of the delayed loop. -/
def delayedStep? (s : Scene σ) : Option (Scene σ) :=
  let feed : Feed σ := ⟨s.cluster, s.run.channel⟩
  (s.run.delayedLoop.step? s.run.delayed s.run.fired feed).map fun (loop, feed) =>
    { s with cluster := feed.cluster
             run := { s.run with channel := feed.channel, delayedLoop := loop }
      : Scene σ }.leaveIfAborted loop.hasStopped s.run.delayed.place

/-! ## §4 Tasks -/

/-- How executions publish: through the queue's broker. -/
def publish (broker : Nat) : Publish (Cluster σ) := fun topic key value cluster =>
  (Cluster.send broker topic key value).on cluster

/-- Put a task in the place of the one at `index`. -/
def setTask (s : Scene σ) (index : Nat) (t : Task) : Scene σ :=
  { s with run := { s.run with tasks := s.run.tasks.set index t } }

/-- Remove the task at `index`. -/
def endTask (s : Scene σ) (index : Nat) : Scene σ :=
  { s with run := { s.run with tasks := s.run.tasks.eraseIdx index } }

/-- One step of a task. Its permit is free again once its execution has ended; what became of it is
reported before the commit pass. A recorder that panics takes the task with it. -/
def taskStep? (jitter : Jitter) (index : Nat) (s : Scene σ) : Option (Scene σ) :=
  match s.run.tasks[index]? with
  | none => none
  | some t =>
    match t.stage with
    | .executing x =>
      let bench : Workbench (Cluster σ) :=
        { producer := s.cluster
          surroundings := { fired := s.run.fired, counters := s.queue.counters } }
      let executor := s.queue.executor jitter
      match x.step? executor s.cluster.now (publish s.queue.broker) bench with
      | none => none
      | some (x, bench) =>
        -- the entry follows the execution, unless it is in a terminal state already
        let (_, ledger) := s.queue.ledger.transition t.entry x.state
        let s : Scene σ :=
          { cluster := bench.producer
            queue := { s.queue with ledger, counters := bench.surroundings.counters }
            run := { s.run with fired := bench.surroundings.fired } }
        match x.resolution? with
        | none => some (s.setTask index { t with stage := .executing x })
        | some resolution =>
          let s := s.setTask index { t with stage := .reporting resolution }
          -- the permit is given back before anything is reported or committed
          some { s with run := { s.run with permits := s.run.permits + 1 } }
    | .reporting resolution =>
      let s := { s with queue := s.queue.report (.resolved s.cluster.now resolution) }
      -- no commit pass then; the next task's pass makes up for it
      if s.queue.recorder = .panicking then some (s.endTask index)
      else some (s.setTask index { t with stage := .committing })
    | .committing => some (s.commitPass.endTask index)

/-! ## §5 All processes -/

/-- A process of a run. -/
inductive Process where
  | dequeue
  | primary
  | delayed
  | task (index : Nat)
  deriving DecidableEq, Repr

/-- One step of a process; `none` if it has to wait. -/
def step? (jitter : Jitter) (s : Scene σ) : Process → Option (Scene σ)
  | .dequeue => s.dequeueStep?
  | .primary => s.primaryStep?
  | .delayed => s.delayedStep?
  | .task index => s.taskStep? jitter index

/-- The processes of a run. -/
def processes (s : Scene σ) : List Process :=
  [.dequeue, .primary, .delayed] ++ (List.range s.run.tasks.length).map .task

/-- Tear a run down that has not ended: executions are dropped where they stand, and the channel
goes away. The intake loops notice that by themselves; a consumer whose loop has stopped leaves its
group at once. -/
def abort (s : Scene σ) : Scene σ :=
  match s.run.dequeue with
  | .ended _ => s
  | .starting => { s with run := { s.run with dequeue := .ended .aborted } }
  | _ =>
    let s : Scene σ := { s with run :=
      { s.run with dequeue := .ended .aborted, tasks := [], channel := s.run.channel.close } }
    let s := s.leaveIfAborted s.run.primaryLoop.hasStopped s.run.primary.place
    s.leaveIfAborted s.run.delayedLoop.hasStopped s.run.delayed.place

/-- Moments at which a waiting process of the run goes on by itself. -/
def dues (s : Scene σ) : List Nat :=
  s.run.primaryLoop.due?.toList ++ s.run.delayedLoop.due?.toList ++
    s.run.tasks.filterMap fun t =>
      match t.stage with
      | .executing x => x.due?
      | _ => none

end Scene

end WorkQueue
