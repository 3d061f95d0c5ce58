import WorkQueue.Keyed
import WorkQueue.Store.Basic

/-!
# A log store in memory

Partitions are arrays of keyed values, positions and groups are maps. A member is removed by
somebody else's heartbeat once its own last one is more than the timeout ago.

## Main definitions

* `MemoryLog`: the store
* `Group`, `Group.heartbeat`: membership
-/

namespace WorkQueue

/-- Members of a group with the times of their last heartbeats, in ascending order of members. -/
structure Group where
  generation : Nat := 0
  members : List (Nat × Nat) := []
  deriving DecidableEq, Repr, Inhabited

namespace Group

/-- Set the time of a member, in ascending order of members. -/
def touch (member now : Nat) : List (Nat × Nat) → List (Nat × Nat)
  | [] => [(member, now)]
  | (m, t) :: rest =>
    if member < m then (member, now) :: (m, t) :: rest
    else if member = m then (member, now) :: rest
    else (m, t) :: touch member now rest

/-- Is this a member? -/
def has (g : Group) (member : Nat) : Bool := g.members.any (·.1 == member)

/-- The membership as others see it. -/
def membership (g : Group) : Membership := ⟨g.generation, g.members.map (·.1)⟩

/-- Add a member that is new. -/
def join (g : Group) (now member : Nat) : Group :=
  ⟨g.generation + 1, touch member now g.members⟩

/-- Those that stay when `member` sends a heartbeat: itself and who is fresh enough. -/
def survivors (g : Group) (now member timeout : Nat) : List (Nat × Nat) :=
  g.members.filter fun (m, seen) => m == member || now - seen ≤ timeout

/-- A heartbeat of `member`. The generation grows if somebody is removed or the member is new. -/
def heartbeat (g : Group) (now member timeout : Nat) : Group :=
  let stay := g.survivors now member timeout
  -- the one who sends it survives however late it is
  let changed := stay.length < g.members.length || !g.has member
  ⟨if changed then g.generation + 1 else g.generation, touch member now stay⟩

/-- Remove a member. The generation grows if it was one. -/
def leave (g : Group) (member : Nat) : Group :=
  if g.has member then ⟨g.generation + 1, g.members.filter (·.1 != member)⟩ else g

end Group

/-- A log store in memory. -/
structure MemoryLog where
  /-- Partitions of each topic: keys and values by offset. -/
  topics : List (String × Array (Array (String × ByteArray))) := []
  /-- The offset each group reads next in a partition of a topic. -/
  positions : List ((String × String × Int) × Int) := []
  groups : List ((String × String) × Group) := []
  lastMember : Nat := 0
  deriving Inhabited

namespace MemoryLog

/-- The store with nothing in it. -/
def empty : MemoryLog := {}

/-- The partitions of a topic. -/
def topic? (s : MemoryLog) (topic : String) : Option (Array (Array (String × ByteArray))) :=
  s.topics.lookup topic

/-- The keys and values of a partition. -/
def log (s : MemoryLog) (topic : String) (partition : Int) :
    Except BrokerError (Array (String × ByteArray)) :=
  match s.topic? topic with
  | none => .error (.unknownTopic topic)
  | some logs =>
    if partition < 0 then .error (.noPartition topic partition)
    else match logs[partition.toNat]? with
      | some log => .ok log
      | none => .error (.noPartition topic partition)

/-- The offset a group reads next. -/
def position? (s : MemoryLog) (group topic : String) (partition : Int) : Option Int :=
  s.positions.lookup (group, topic, partition)

/-- The members of a group; one that does not exist has none. -/
def group (s : MemoryLog) (group topic : String) : Group :=
  (s.groups.lookup (group, topic)).getD {}

/-- Replace the members of a group. -/
def setGroup (s : MemoryLog) (group topic : String) (g : Group) : MemoryLog :=
  { s with groups := Keyed.put (group, topic) g s.groups }

/-- Append to a partition. -/
def append (s : MemoryLog) (topic : String) (partition : Int) (key : String) (value : ByteArray) :
    Except BrokerError Int × MemoryLog :=
  match s.log topic partition with
  | .error e => (.error e, s)
  | .ok log =>
    -- the partition is there, so the topic is
    let logs := (s.topic? topic).getD #[]
    let logs := logs.setIfInBounds partition.toNat (log.push (key, value))
    (.ok log.size, { s with topics := Keyed.put topic logs s.topics })

/-- The records of a partition from an offset on. A negative offset reads from the start. -/
def read (s : MemoryLog) (topic : String) (partition start : Int) (limit : Nat) :
    Except BrokerError (List Record) :=
  (s.log topic partition).map fun log =>
    let first := start.toNat
    ((log.extract first (first + limit)).toList.zipIdx first).map fun ((key, value), offset) =>
      { topic, partition, offset := (offset : Int), key, value }

/-- Move a position forward. -/
def commit (s : MemoryLog) (group topic : String) (partition next : Int) : MemoryLog :=
  let next := match s.position? group topic partition with
    | some old => max old next
    | none => next
  { s with positions := Keyed.put (group, topic, partition) next s.positions }

/-- Add a new member. -/
def join (s : MemoryLog) (now : Nat) (group topic : String) : Nat × MemoryLog :=
  -- numbers are not used twice, even when their members have left
  let id := s.lastMember + 1
  let s := { s with lastMember := id }
  (id, s.setGroup group topic ((s.group group topic).join now id))

instance : LogStore MemoryLog where
  createTopic topic partitions := .update fun s =>
    ((), match s.topic? topic with
      | some _ => s
      | none =>
        let logs := Array.replicate (max partitions 1).toNat #[]
        { s with topics := Keyed.put topic logs s.topics })
  partitions topic := .view fun s => (s.topic? topic).map fun logs => (logs.size : Int)
  append topic partition key value := .ofFunction fun s => s.append topic partition key value
  read topic partition start limit := .viewExcept fun s => s.read topic partition start limit
  committed group topic partition := .view fun s => s.position? group topic partition
  commit group topic partition next := .update fun s => ((), s.commit group topic partition next)
  join now group topic := .update fun s => s.join now group topic
  heartbeat now group topic member timeout := .update fun s =>
    let g := (s.group group topic).heartbeat now member timeout
    (g.membership, s.setGroup group topic g)
  leave group topic member := .update fun s =>
    ((), match s.groups.lookup (group, topic) with
      | some g => s.setGroup group topic (g.leave member)
      | none => s)

end MemoryLog

end WorkQueue
