import WorkQueue.Record

/-!
# What a log store offers

A log store keeps the records of topics, the positions of groups and the members of groups. Every
operation may fail and may change the store; a failed one keeps what it had changed before. Times
are milliseconds of the clock that memberships age by.

## Main definitions

* `StoreM`: an operation on a store
* `LogStore`: the operations
-/

namespace WorkQueue

/-- An operation on a store of type `σ`. -/
abbrev StoreM (σ α : Type) := ExceptT BrokerError (StateM σ) α

/-- Members of a group at one generation, in ascending order. -/
structure Membership where
  generation : Nat
  members : List Nat
  deriving DecidableEq, Repr

/-- The operations of a log store. -/
class LogStore (σ : Type) where
  /-- Create a topic. One that exists keeps its number of partitions. -/
  createTopic (topic : String) (partitions : Int) : StoreM σ Unit
  /-- Number of partitions of a topic, if it exists. -/
  partitions (topic : String) : StoreM σ (Option Int)
  /-- Append a record and tell its offset. -/
  append (topic : String) (partition : Int) (key : String) (value : ByteArray) : StoreM σ Int
  /-- Up to `limit` records from offset `start` on. -/
  read (topic : String) (partition start : Int) (limit : Nat) : StoreM σ (List Record)
  /-- The offset a group reads next, if it ever committed. -/
  committed (group topic : String) (partition : Int) : StoreM σ (Option Int)
  /-- Set the offset a group reads next, unless it is further already. -/
  commit (group topic : String) (partition next : Int) : StoreM σ Unit
  /-- Add a new member to a group and tell its number, unique within the store. -/
  join (now : Nat) (group topic : String) : StoreM σ Nat
  /-- Refresh a member, remove those not refreshed within `timeout`, and tell the membership. A
  member that had been removed is added again. -/
  heartbeat (now : Nat) (group topic : String) (member timeout : Nat) : StoreM σ Membership
  /-- Remove a member from its group. -/
  leave (group topic : String) (member : Nat) : StoreM σ Unit

namespace StoreM

variable {σ α : Type}

/-- Run an operation on a store: its result, and the store behind it. -/
def on (m : StoreM σ α) (store : σ) : Except BrokerError α × σ := (ExceptT.run m).run store

/-- An operation given by its result and the store behind it. -/
def ofFunction (f : σ → Except BrokerError α × σ) : StoreM σ α := fun s => f s

/-- An operation that never fails and leaves the store as it is. -/
def view (f : σ → α) : StoreM σ α := ofFunction fun s => (.ok (f s), s)

/-- An operation that may fail and leaves the store as it is. -/
def viewExcept (f : σ → Except BrokerError α) : StoreM σ α := ofFunction fun s => (f s, s)

/-- An operation that never fails. -/
def update (f : σ → α × σ) : StoreM σ α := ofFunction fun s => ((.ok (f s).1), (f s).2)

@[simp] theorem on_ofFunction (f : σ → Except BrokerError α × σ) (s : σ) :
    (ofFunction f).on s = f s := rfl

@[simp] theorem on_view (f : σ → α) (s : σ) : (view f).on s = (.ok (f s), s) := rfl

@[simp] theorem on_viewExcept (f : σ → Except BrokerError α) (s : σ) :
    (viewExcept f).on s = (f s, s) := rfl

@[simp] theorem on_update (f : σ → α × σ) (s : σ) :
    (update f).on s = (.ok (f s).1, (f s).2) := rfl

end StoreM

end WorkQueue
