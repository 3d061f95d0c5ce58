import WorkQueue.Keyed
import WorkQueue.Number.Word
import WorkQueue.Store.Basic

/-!
# A log store in tables

The same store kept as rows of relations, the way a database keeps it. Numbers are signed 64-bit
words there, so a large member number or timeout is stored as a negative one. A member number is
unique over all groups, and no number at or below the largest one ever seen is given out.

## Main definitions

* `TableLog`: the store
-/

namespace WorkQueue

/-- A record in its table. -/
structure RecordRow where
  topic : String
  partition : Int
  offset : Int
  key : String
  value : ByteArray
  deriving Inhabited

/-- A member in its table. -/
structure MemberRow where
  id : Int
  group : String
  topic : String
  lastSeen : Int
  deriving DecidableEq, Repr, Inhabited

/-- A log store in tables. -/
structure TableLog where
  topics : List (String × Int) := []
  records : Array RecordRow := #[]
  /-- The offset each group reads next in a partition of a topic. -/
  positions : List ((String × String × Int) × Int) := []
  generations : List ((String × String) × Int) := []
  members : List MemberRow := []
  /-- The largest member number ever stored, zero at first. -/
  lastMember : Int := 0
  deriving Inhabited

namespace TableLog

/-- The store with nothing in it. -/
def empty : TableLog := {}

/-- An error that the database reports. -/
def databaseError (code : Nat) (text : String) : BrokerError :=
  .storage ("error returned from database: (code: " ++ toString code ++ ") " ++ text)

/-- A member number that is taken. -/
def memberTaken : BrokerError :=
  databaseError 1555 "UNIQUE constraint failed: tasklog_members.member_id"

/-- No member number is left to give out. -/
def membersUsedUp : BrokerError := databaseError 13 "database or disk is full"

/-- Rows of one partition, in the order of their offsets. -/
def rows (s : TableLog) (topic : String) (partition : Int) : List RecordRow :=
  s.records.toList.filter fun r => r.topic == topic && r.partition == partition

/-- The offset of the next record of a partition. -/
def nextOffset (s : TableLog) (topic : String) (partition : Int) : Int :=
  match (s.rows topic partition).getLast? with
  | some r => r.offset + 1
  | none => 0

/-- Append a record to a partition that exists. -/
def append (s : TableLog) (topic : String) (partition : Int) (key : String) (value : ByteArray) :
    Except BrokerError Int × TableLog :=
  match s.topics.lookup topic with
  | none => (.error (.unknownTopic topic), s)
  | some partitions =>
    if 0 ≤ partition ∧ partition < partitions then
      let offset := s.nextOffset topic partition
      (.ok offset, { s with records := s.records.push ⟨topic, partition, offset, key, value⟩ })
    else (.error (.noPartition topic partition), s)

/-- Records of a partition from an offset on; a partition that does not exist has none. A limit
that is negative as a word does not limit. -/
def read (s : TableLog) (topic : String) (partition start : Int) (limit : Nat) : List Record :=
  let found := (s.rows topic partition).filter fun r => decide (start ≤ r.offset)
  -- taken in offset order, which is the order of the rows
  let limit := toWord limit
  let found := if limit < 0 then found else found.take limit.toNat
  found.map fun r => ⟨r.topic, r.partition, r.offset, r.key, r.value⟩

/-- Move a position forward. -/
def commit (s : TableLog) (group topic : String) (partition next : Int) : TableLog :=
  let next := match s.positions.lookup (group, topic, partition) with
    | some old => max old next
    | none => next
  { s with positions := Keyed.put (group, topic, partition) next s.positions }

/-- Raise the generation of a group by one, from zero if it has none. -/
def bump (s : TableLog) (group topic : String) : TableLog :=
  let generation := (s.generations.lookup (group, topic)).getD 0
  { s with generations := Keyed.put (group, topic) (generation + 1) s.generations }

/-- Insert a member row; member numbers are unique over all groups. -/
def insertMember (s : TableLog) (row : MemberRow) : Except BrokerError TableLog :=
  if s.members.any (·.id == row.id) then .error memberTaken
  else .ok { s with members := s.members ++ [row], lastMember := max s.lastMember row.id }

/-- Add a new member, its number one above the largest ever seen. -/
def join (s : TableLog) (now : Nat) (group topic : String) : Except BrokerError Nat × TableLog :=
  let id := s.lastMember + 1
  if id > maxSigned64 then (.error membersUsedUp, s)
  else match s.insertMember ⟨id, group, topic, now⟩ with
    | .error e => (.error e, s)
    | .ok s => (.ok (ofWord id), s.bump group topic)

/-- Is this the row of a member of the group? -/
def inGroup (group topic : String) (row : MemberRow) : Bool :=
  row.group == group && row.topic == topic

/-- Refresh a member, or add it if it is none. Tells whether it was added. -/
def refresh (s : TableLog) (now : Nat) (group topic : String) (id : Int) :
    Except BrokerError (Bool × TableLog) :=
  if s.members.any fun r => r.id == id && inGroup group topic r then
    .ok (false, { s with members := s.members.map fun r =>
      if r.id == id && inGroup group topic r then { r with lastSeen := now } else r })
  else do
    let s ← s.insertMember ⟨id, group, topic, now⟩
    return (true, s)

/-- The membership of a group, in ascending order of signed numbers. -/
def membership (s : TableLog) (group topic : String) : Membership :=
  let ids := (s.members.filter (inGroup group topic)).map (·.id)
  ⟨ofWord ((s.generations.lookup (group, topic)).getD 0),
    (ids.mergeSort fun a b => decide (a ≤ b)).map ofWord⟩

/-- A heartbeat: refresh the member, then remove all rows of the group that were last seen before
the cutoff. A failed heartbeat leaves the tables as they were. -/
def heartbeat (s : TableLog) (now : Nat) (group topic : String) (member timeout : Nat) :
    Except BrokerError Membership × TableLog :=
  match s.refresh now group topic (toWord member) with
  | .error e => (.error e, s)
  | .ok (rejoined, fresh) =>
    -- the difference wraps around like the word it is stored in
    let cutoff := toWord (now - toWord timeout)
    let stale (r : MemberRow) : Bool := inGroup group topic r && decide (r.lastSeen < cutoff)
    let expired := fresh.members.any stale
    let kept := { fresh with members := fresh.members.filter fun r => !stale r }
    let s := if rejoined || expired then kept.bump group topic else kept
    (.ok (s.membership group topic), s)

/-- Remove a member from its group. -/
def leave (s : TableLog) (group topic : String) (member : Nat) : TableLog :=
  let goes (r : MemberRow) : Bool := r.id == toWord member && inGroup group topic r
  if s.members.any goes then
    { s with members := s.members.filter fun r => !goes r }.bump group topic
  else s

instance : LogStore TableLog where
  createTopic topic partitions := .update fun s =>
    ((), match s.topics.lookup topic with
      | some _ => s
      | none => { s with topics := Keyed.put topic (max partitions 1) s.topics })
  partitions topic := .view fun s => s.topics.lookup topic
  append topic partition key value := .ofFunction fun s => s.append topic partition key value
  read topic partition start limit := .view fun s => s.read topic partition start limit
  committed group topic partition := .view fun s => s.positions.lookup (group, topic, partition)
  commit group topic partition next := .update fun s => ((), s.commit group topic partition next)
  join now group topic := .ofFunction fun s => s.join now group topic
  heartbeat now group topic member timeout := .ofFunction fun s =>
    s.heartbeat now group topic member timeout
  leave group topic member := .update fun s => ((), s.leave group topic member)

end TableLog

end WorkQueue
