import WorkQueue.Store.Basic

/-!
# Members of a group reading a topic

The partitions of a topic are dealt out in turn to the members of a group, in the order of their
numbers. A consumer learns the membership by a heartbeat before it reads or commits. Whenever the
generation has changed it drops what it has buffered of partitions it lost, and reads partitions it
gained from the group's position.

Reading goes in batches: the partitions are asked in turn, beginning behind the one that was read
last, and the first that has records fills the buffer.

## Main definitions

* `Fetch`: positions, buffer and turn of a consumer
* `FetchM`: an operation on it and on the store
* `Consumer.sync`, `Consumer.fill`, `Consumer.turn`: reading
* `Consumer.commit`: moving the group's positions
-/

namespace WorkQueue

/-- Where a consumer stands in its partitions. -/
structure Fetch where
  /-- The generation the positions belong to. -/
  generation : Option Nat := none
  /-- The next offset to fetch of each assigned partition, in ascending order of partitions. -/
  positions : List (Int × Int) := []
  /-- Records that have been fetched and not been handed out. -/
  buffer : List Record := []
  /-- The place among the positions at which the next fetch begins. -/
  cursor : Nat := 0
  deriving Inhabited

/-- A member of a group. -/
structure Consumer where
  id : Nat
  /-- The broker it was subscribed at. -/
  broker : Nat
  group : String
  topic : String
  /-- Number of partitions of the topic when it was subscribed. -/
  partitions : Int
  fetch : Fetch := {}
  closed : Bool := false
  deriving Inhabited

/-- An operation on the state of a consumer and on the store. -/
abbrev FetchM (σ α : Type) := ExceptT BrokerError (StateM (Fetch × σ)) α

namespace FetchM

variable {σ α : Type}

/-- An operation on the store alone. -/
def store (m : StoreM σ α) : FetchM σ α := fun (f, s) =>
  let (result, s) := m.on s
  (result, (f, s))

/-- The state of the consumer. -/
def fetch : FetchM σ Fetch := fun (f, s) => (.ok f, (f, s))

/-- Change the state of the consumer. -/
def modifyFetch (change : Fetch → Fetch) : FetchM σ Unit := fun (f, s) => (.ok (), (change f, s))

/-- Run an operation: its result, and both states behind it. -/
def on (m : FetchM σ α) (f : Fetch) (s : σ) : Except BrokerError α × Fetch × σ :=
  (ExceptT.run m).run (f, s)

end FetchM

namespace Fetch

/-- Set the position of a partition, in ascending order of partitions. -/
def insertPosition (partition offset : Int) : List (Int × Int) → List (Int × Int)
  | [] => [(partition, offset)]
  | (p, o) :: rest =>
    if partition < p then (partition, offset) :: (p, o) :: rest
    else if partition = p then (partition, offset) :: rest
    else (p, o) :: insertPosition partition offset rest

/-- Set the position of a partition. -/
def setPosition (f : Fetch) (partition offset : Int) : Fetch :=
  { f with positions := insertPosition partition offset f.positions }

/-- Keep only what belongs to the assigned partitions. -/
def retain (f : Fetch) (assigned : List Int) : Fetch :=
  { f with
    positions := f.positions.filter fun (p, _) => assigned.contains p
    buffer := f.buffer.filter fun r => assigned.contains r.partition }

/-- The places among `n` positions in the order a fetch asks them. -/
def slots (f : Fetch) : List Nat :=
  (List.range f.positions.length).map fun i => (f.cursor + i) % f.positions.length

/-- Take over records of the partition at a place, the last of which is `last`. -/
def take (f : Fetch) (slot : Nat) (partition : Int) (records : List Record) (last : Record) :
    Fetch :=
  let f := f.setPosition partition (last.offset + 1)
  -- the next fetch begins with another partition, so that none is starved
  { f with buffer := f.buffer ++ records, cursor := (slot + 1) % f.positions.length }

end Fetch

/-- Records fetched at a time at most. -/
def fetchBatch : Nat := 64

/-- What one turn of reading came to. -/
inductive Turn where
  | record (record : Record)
  /-- Records were fetched; the next turn hands one out. -/
  | filled
  /-- There is nothing to read. -/
  | idle

/-- The partitions dealt to the member at place `index` of `members`. -/
def dealt (partitions : Int) (index members : Nat) : List Int :=
  ((List.range partitions.toNat).filter fun p => p % members == index).map Int.ofNat

namespace Consumer

variable {σ : Type} [LogStore σ]

/-- Send a heartbeat, and tell the generation and the partitions assigned to this consumer. One
that is not among the members any more is closed. -/
def assignment (c : Consumer) (now timeout : Nat) : StoreM σ (Nat × List Int) := do
  if c.closed then throw .closed
  let m ← LogStore.heartbeat now c.group c.topic c.id timeout
  match m.members.idxOf? c.id with
  | none => throw .closed
  | some index => return (m.generation, dealt c.partitions index m.members.length)

/-- Begin to read each partition that has no position yet at the group's position. -/
def openPositions (c : Consumer) : List Int → FetchM σ Unit
  | [] => pure ()
  | p :: rest => do
    if (← FetchM.fetch).positions.any (·.1 == p) then c.openPositions rest
    else
      let position ← FetchM.store (LogStore.committed c.group c.topic p)
      FetchM.modifyFetch (·.setPosition p (position.getD 0))
      c.openPositions rest

/-- Bring the positions to the latest generation. -/
def sync (c : Consumer) (now timeout : Nat) : FetchM σ Unit := do
  let (generation, assigned) ← FetchM.store (c.assignment now timeout)
  -- only the latest generation is compared; those in between are not known here
  if (← FetchM.fetch).generation = some generation then return
  FetchM.modifyFetch (·.retain assigned)
  c.openPositions assigned
  -- noted last, so that a turn which fails before is made up for by the next one
  FetchM.modifyFetch ({ · with generation := some generation })

/-- Ask the partitions at some places in turn, up to the first that has records. -/
def fillFrom (c : Consumer) : List Nat → FetchM σ Bool
  | [] => return false
  | slot :: rest => do
    match (← FetchM.fetch).positions[slot]? with
    | none => c.fillFrom rest
    | some (partition, start) =>
      let records ← FetchM.store (LogStore.read c.topic partition start fetchBatch)
      match records.getLast? with
      | none => c.fillFrom rest
      | some last =>
        FetchM.modifyFetch (·.take slot partition records last)
        return true

/-- Fetch records of one partition into the buffer, if any has some. -/
def fill (c : Consumer) : FetchM σ Bool := do c.fillFrom (← FetchM.fetch).slots

/-- One turn of reading: hand out a buffered record, or fetch some. -/
def turn (c : Consumer) (now timeout : Nat) : FetchM σ Turn := do
  if c.closed then throw .closed
  c.sync now timeout
  match (← FetchM.fetch).buffer with
  | r :: rest =>
    FetchM.modifyFetch ({ · with buffer := rest })
    return .record r
  | [] => if ← c.fill then return .filled else return .idle

/-- Move the group's position behind each offset whose partition is assigned. Tells the first
partition that is not. -/
def commitAll (c : Consumer) (assigned : List Int) : List (Int × Int) → Option Int →
    StoreM σ (Option Int)
  | [], rejected => return rejected
  | (partition, offset) :: rest, rejected => do
    if assigned.contains partition then
      -- the position is the offset to read next
      LogStore.commit c.group c.topic partition (offset + 1)
      c.commitAll assigned rest rejected
    -- the others are committed nevertheless
    else c.commitAll assigned rest (rejected <|> some partition)

/-- Mark everything up to each offset as processed, in the partitions assigned to the consumer. The
commit fails if there are others among them. -/
def commit (c : Consumer) (now timeout : Nat) (offsets : List (Int × Int)) : StoreM σ Unit := do
  let (_, assigned) ← c.assignment now timeout
  match ← c.commitAll assigned offsets none with
  | some partition => throw (.notAssigned c.topic partition)
  | none => return ()

end Consumer

end WorkQueue
