import WorkQueue.Ledger.Entry

/-!
# The ledger of consumed records

Every consumed record has an entry in the queue of its consumer and partition. Entries may end in
any order, but a pass releases a queue's head only while the head may be committed, so the offset
a pass reports never runs past a record whose outcome is open.

Entries are numbered in the order they were accepted. An entry keeps its number, and can still
change its state, when no queue holds it any more.

## Main definitions

* `Ledger`, `Ledger.append`, `Ledger.transition`
* `Ledger.collect`: a commit pass and its `CommitPlan`
* `Ledger.forget`, `Ledger.pending`, `Ledger.snapshot`
-/

namespace WorkQueue

/-- The queue of one consumer and one partition. -/
structure LedgerKey where
  consumer : Nat
  partition : Int
  deriving DecidableEq, Repr, Inhabited

/-- Keys ascend by consumer, then by partition. -/
def LedgerKey.before (a b : LedgerKey) : Bool :=
  a.consumer < b.consumer || (a.consumer == b.consumer && a.partition < b.partition)

/-- Consumed records that have not been committed. -/
structure Ledger where
  /-- Every entry ever accepted, at its number. -/
  entries : Array Entry := #[]
  /-- Numbers of the tracked entries, by key, oldest first. Keys ascend. -/
  queues : List (LedgerKey × List Nat) := []
  deriving Inhabited

/-- A record that does not come behind the last one of its queue. -/
structure OutOfOrder where
  partition : Int
  offset : Int
  tail : Int
  deriving DecidableEq, Repr

/-- The wording of a refusal. -/
def OutOfOrder.message (e : OutOfOrder) : String :=
  "offset " ++ toString e.offset ++ " of partition " ++ toString e.partition ++
    " arrived after offset " ++ toString e.tail

namespace Ledger

/-! ## §1 Entries -/

/-- The ledger that tracks nothing. -/
def empty : Ledger := {}

/-- The entry of a number. -/
def entry? (l : Ledger) (id : Nat) : Option Entry := l.entries[id]?

/-- The offset of the entry of a number. -/
def offsetOf (l : Ledger) (id : Nat) : Int :=
  match l.entry? id with
  | some e => e.record.offset
  -- no queue holds such a number
  | none => 0

/-- The state of the entry of a number. -/
def stateOf (l : Ledger) (id : Nat) : EntryState :=
  match l.entry? id with
  | some e => e.state
  | none => .queued

/-- The tracked entries of a key, oldest first. -/
def queue (l : Ledger) (key : LedgerKey) : List Nat := (l.queues.lookup key).getD []

/-- Append a number to the queue of a key, in ascending order of keys. -/
def enqueue (key : LedgerKey) (id : Nat) : List (LedgerKey × List Nat) → List (LedgerKey × List Nat)
  | [] => [(key, [id])]
  | (k, ids) :: rest =>
    if key = k then (k, ids ++ [id]) :: rest
    else if key.before k then (key, [id]) :: (k, ids) :: rest
    else (k, ids) :: enqueue key id rest

/-- Track a record that `consumer` has read. Offsets have to ascend within a queue; a record that
does not is refused, and the ledger stays as it is. -/
def append (l : Ledger) (consumer : Nat) (record : Record) : Except OutOfOrder (Nat × Ledger) :=
  let key : LedgerKey := ⟨consumer, record.partition⟩
  let id := l.entries.size
  let accepted : Ledger :=
    { entries := l.entries.push ⟨consumer, record, .queued⟩, queues := enqueue key id l.queues }
  match (l.queue key).getLast? with
  | none => .ok (id, accepted)
  | some tail =>
    -- only the last entry matters: those in front of it have smaller offsets
    if record.offset ≤ l.offsetOf tail then
      .error ⟨record.partition, record.offset, l.offsetOf tail⟩
    else .ok (id, accepted)

/-- Move an entry to a state, unless it has reached a terminal one. Tells whether it moved. -/
def transition (l : Ledger) (id : Nat) (next : EntryState) : Bool × Ledger :=
  match l.entry? id with
  | none => (false, l)
  | some e =>
    if e.state.isTerminal then (false, l)
    else (true, { l with entries := l.entries.modify id fun e => { e with state := next } })

/-! ## §2 Commit passes -/

/-- A queue's head that stopped a pass. -/
structure BlockedHead where
  key : LedgerKey
  offset : Int
  state : EntryState
  deriving DecidableEq, Repr

/-- What a pass released. -/
structure CommitPlan where
  /-- The highest offset to commit of each partition, by consumer. -/
  offsets : List (Nat × List (Int × Int))
  /-- Number of entries released. -/
  released : Nat
  /-- The heads that the pass stopped at. -/
  blocked : List BlockedHead
  deriving DecidableEq, Repr

/-- Does a pass leave everything as it was? -/
def CommitPlan.isEmpty (plan : CommitPlan) : Bool := plan.released == 0

/-- May the entry of a number be committed? -/
def committable (l : Ledger) (id : Nat) : Bool := (l.stateOf id).isCommittable

/-- Collect the offsets of one consumer under its number; those of one consumer are adjacent. -/
def groupByConsumer : List (Nat × (Int × Int)) → List (Nat × List (Int × Int))
  | [] => []
  | (consumer, offset) :: rest =>
    match groupByConsumer rest with
    | (c, offsets) :: groups =>
      if c = consumer then (c, offset :: offsets) :: groups
      else (consumer, [offset]) :: (c, offsets) :: groups
    | [] => [(consumer, [offset])]

/-- The offset that a pass reports for a queue: that of the last entry it releases. -/
def released? (l : Ledger) (queue : LedgerKey × List Nat) : Option (Nat × (Int × Int)) :=
  (queue.2.takeWhile l.committable).getLast?.map fun id =>
    (queue.1.consumer, (queue.1.partition, l.offsetOf id))

/-- The head that stops a pass on a queue. -/
def blocked? (l : Ledger) (queue : LedgerKey × List Nat) : Option BlockedHead :=
  (queue.2.dropWhile l.committable).head?.map fun id =>
    ⟨queue.1, l.offsetOf id, l.stateOf id⟩

/-- What a pass leaves of a queue. -/
def remaining? (l : Ledger) (queue : LedgerKey × List Nat) : Option (LedgerKey × List Nat) :=
  match queue.2.dropWhile l.committable with
  -- a queue that is empty is not kept
  | [] => none
  | rest => some (queue.1, rest)

/-- Release the longest committable front of every queue. -/
def collect (l : Ledger) : CommitPlan × Ledger :=
  ({ offsets := groupByConsumer (l.queues.filterMap l.released?)
     released := (l.queues.flatMap fun q => q.2.takeWhile l.committable).length
     blocked := l.queues.filterMap l.blocked? },
   { l with queues := l.queues.filterMap l.remaining? })

/-! ## §3 Bookkeeping -/

/-- Number of tracked entries. -/
def pending (l : Ledger) : Nat := (l.queues.flatMap (·.2)).length

/-- Drop all queues of a consumer that has left its group. Tells how many entries they held. -/
def forget (l : Ledger) (consumer : Nat) : Nat × Ledger :=
  let (dropped, kept) := l.queues.partition fun q => q.1.consumer == consumer
  ((dropped.flatMap (·.2)).length, { l with queues := kept })

/-- One queue as others see it. -/
structure QueueSnapshot where
  key : LedgerKey
  pending : Nat
  headOffset : Option Int
  headState : Option EntryState
  deriving DecidableEq, Repr

/-- All queues, in ascending order of their keys. -/
def snapshot (l : Ledger) : List QueueSnapshot :=
  l.queues.map fun (key, ids) =>
    ⟨key, ids.length, ids.head?.map l.offsetOf, ids.head?.map l.stateOf⟩

end Ledger

end WorkQueue
