import WorkQueue.Consumer.Basic
import WorkQueue.Duration
import WorkQueue.Envelope
import WorkQueue.KeyHash

/-!
# Brokers over one store

A cluster is a store, the brokers that share it, and the consumers that have been subscribed. A
broker creates topics when they are first used, spreads records over partitions by their keys, and
wakes up those who wait at it whenever it has appended a record or one of its consumers has joined
or left. Others' appends do not wake them.

Two clocks run: timers follow `now`, memberships age by `wall`.

## Main definitions

* `Broker`, `Cluster`, `ClusterM`
* `Cluster.subscribe`, `Cluster.send`, `Cluster.enqueue`
* `Cluster.turn`, `Cluster.commit`, `Cluster.close`
-/

namespace WorkQueue

/-- A broker's settings, and how often it has woken up those who wait at it. -/
structure Broker where
  /-- Number of partitions of a topic that is created by its first use. -/
  defaultPartitions : Int := 4
  /-- Milliseconds without a heartbeat before a member loses its partitions. -/
  sessionTimeout : Nat := 30000
  signals : Nat := 0
  deriving DecidableEq, Repr, Inhabited

namespace Broker

/-- A broker with the given settings; a topic has at least one partition. -/
def create (defaultPartitions : Int) (sessionTimeout : Nat) : Broker :=
  { defaultPartitions := max defaultPartitions 1, sessionTimeout }

/-- The broker with another session timeout, of which it keeps the whole milliseconds in a word. -/
def withSessionTimeout (b : Broker) (span : Duration) : Broker :=
  { b with sessionTimeout := span.millisWord }

variable {σ : Type} [LogStore σ]

/-- The number of partitions of a topic, which is created if it does not exist. -/
def ensureTopic (b : Broker) (topic : String) : StoreM σ Int := do
  match ← LogStore.partitions topic with
  | some n => return n
  | none =>
    LogStore.createTopic topic b.defaultPartitions
    -- asked again, since somebody else may have created it with another number
    match ← LogStore.partitions topic with
    | some n => return n
    | none => throw (.unknownTopic topic)

/-- Append a record to the partition of its key. Tells partition and offset. -/
def append (b : Broker) (topic key : String) (value : ByteArray) : StoreM σ (Int × Int) := do
  let partition := partitionFor key (← b.ensureTopic topic)
  return (partition, ← LogStore.append topic partition key value)

end Broker

/-- Why a task could not be enqueued. -/
inductive EnqueueError where
  | envelope (cause : EnvelopeError)
  | publish (cause : BrokerError)
  deriving DecidableEq, Repr

/-- The wording of an enqueue error. -/
def EnqueueError.message : EnqueueError → String
  | envelope cause => cause.message
  | publish cause => "publish failed: " ++ cause.message

/-- Brokers and consumers over one store. -/
structure Cluster (σ : Type) where
  store : σ
  brokers : Array Broker
  consumers : Array Consumer := #[]
  /-- The clock of timers, in milliseconds. -/
  now : Nat := 0
  /-- The clock of memberships, in milliseconds. -/
  wall : Nat := 0
  deriving Inhabited

/-- An operation on a cluster. -/
abbrev ClusterM (σ α : Type) := ExceptT BrokerError (StateM (Cluster σ)) α

namespace ClusterM

variable {σ α : Type}

/-- Run an operation: its result, and the cluster behind it. -/
def on (m : ClusterM σ α) (c : Cluster σ) : Except BrokerError α × Cluster σ :=
  (ExceptT.run m).run c

/-- An operation on the store alone. -/
def store (m : StoreM σ α) : ClusterM σ α := fun c =>
  let (result, store) := m.on c.store
  (result, { c with store })

end ClusterM

namespace Cluster

variable {σ : Type}

/-! ## §1 Brokers -/

/-- A broker of the cluster; one that does not exist has the standard settings. -/
def broker (c : Cluster σ) (index : Nat) : Broker := c.brokers.getD index {}

/-- Wake up everybody who waits at a broker. -/
def signal (c : Cluster σ) (index : Nat) : Cluster σ :=
  { c with brokers := c.brokers.modify index fun b => { b with signals := b.signals + 1 } }

variable [LogStore σ]

/-- Create a topic with at least one partition. -/
def createTopic (topic : String) (partitions : Int) : ClusterM σ Unit :=
  .store (LogStore.createTopic topic (max partitions 1))

/-- Add a new member to a group. Tells the consumer's place in the cluster. -/
def subscribe (broker : Nat) (group topic : String) : ClusterM σ Nat := do
  let c ← get
  let partitions ← .store ((c.broker broker).ensureTopic topic)
  let id ← .store (LogStore.join c.wall group topic)
  modifyGet fun c =>
    let consumer : Consumer := { id, broker, group, topic, partitions }
    (c.consumers.size, { c.signal broker with consumers := c.consumers.push consumer })

/-- Publish a record through a broker. -/
def send (broker : Nat) (topic key : String) (value : ByteArray) : ClusterM σ (Int × Int) := do
  let place ← .store (((← get).broker broker).append topic key value)
  modify (·.signal broker)
  return place

/-- Publish the first envelope of a task. -/
def enqueue (broker : Nat) (topic key taskType : String) (payload : RawPayload) (c : Cluster σ) :
    Except EnqueueError (Int × Int) × Cluster σ :=
  match Envelope.create taskType payload with
  | .error e => (.error (.envelope e), c)
  | .ok e =>
    let (result, c) := (send broker topic key e.encode).on c
    (result.mapError .publish, c)

/-! ## §2 Consumers -/

/-- A consumer of the cluster. -/
def consumer? (c : Cluster σ) (index : Nat) : Option Consumer := c.consumers[index]?

/-- One turn of reading of a consumer. -/
def turn (index : Nat) : ClusterM σ Turn := fun c =>
  match c.consumer? index with
  | none => (.error .closed, c)
  | some k =>
    let (result, fetch, store) :=
      (k.turn c.wall (c.broker k.broker).sessionTimeout).on k.fetch c.store
    (result, { c with store, consumers := c.consumers.modify index ({ · with fetch }) })

/-- Commit offsets as a consumer. -/
def commit (index : Nat) (offsets : List (Int × Int)) : ClusterM σ Unit := do
  let c ← get
  match c.consumer? index with
  | none => throw .closed
  | some k => .store (k.commit c.wall (c.broker k.broker).sessionTimeout offsets)

/-- Let a consumer leave its group, if it has not left before. That the store fails to remove it
is of no consequence: it will expire. -/
def close (index : Nat) (c : Cluster σ) : Cluster σ :=
  match c.consumer? index with
  | none => c
  | some k =>
    if k.closed then c
    else
      -- closed before the store is asked, so that it is not asked twice
      let c := { c with consumers := c.consumers.modify index ({ · with closed := true }) }
      let (_, store) := StoreM.on (LogStore.leave k.group k.topic k.id) c.store
      { c with store }.signal k.broker

end Cluster

end WorkQueue
