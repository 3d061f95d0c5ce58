import WorkQueue.Store.Basic

/-!
# A store that fails on purpose

Planned failures sit in front of a store. A failure lets some matching calls pass, then fails some,
before they reach the store. An eviction is no failure: the heartbeat succeeds, but its caller is
missing from the members it is told.

## Main definitions

* `Fault`: one planned failure
* `Faulty`: a store behind a list of them
-/

namespace WorkQueue

/-- A kind of call that a failure can be planned for. -/
inductive FaultPoint where
  | createTopic
  | partitions
  | append
  | read
  | committed
  | commit
  | join
  | heartbeat
  | leave
  | evict
  deriving DecidableEq, Repr

/-- The name of a kind of call. -/
def FaultPoint.name : FaultPoint → String
  | createTopic => "create_topic"
  | partitions => "partitions"
  | append => "append"
  | read => "read"
  | committed => "committed"
  | commit => "commit"
  | join => "join"
  | heartbeat => "heartbeat"
  | leave => "leave"
  | evict => "evict"

/-- A planned failure: of matching calls, `skip` pass and the next `times` fail. -/
structure Fault where
  on : FaultPoint
  topic : Option String
  skip : Nat
  times : Nat
  deriving DecidableEq, Repr

namespace Fault

/-- Does a failure concern a call? -/
def concerns (f : Fault) (point : FaultPoint) (topic : String) : Bool :=
  f.on == point && (match f.topic with | some t => t == topic | none => true)

/-- Ask all planned failures about a call: does it fail, and what is planned afterwards? The first
failure that strikes hides the call from the ones behind it. -/
def consult (point : FaultPoint) (topic : String) : List Fault → Bool × List Fault
  | [] => (false, [])
  | f :: rest =>
    if f.concerns point topic then
      if f.skip > 0 then
        let (strikes, rest) := consult point topic rest
        (strikes, { f with skip := f.skip - 1 } :: rest)
      else if f.times > 0 then (true, { f with times := f.times - 1 } :: rest)
      else
        let (strikes, rest) := consult point topic rest
        (strikes, f :: rest)
    else
      let (strikes, rest) := consult point topic rest
      (strikes, f :: rest)

end Fault

/-- A store behind planned failures. -/
structure Faulty (σ : Type) where
  inner : σ
  plan : List Fault := []

namespace Faulty

variable {σ α : Type}

/-- Does a planned failure strike this call? -/
def strikes (point : FaultPoint) (topic : String) : StoreM (Faulty σ) Bool := .update fun s =>
  let (strikes, plan) := Fault.consult point topic s.plan
  (strikes, { s with plan })

/-- An operation of the store itself. -/
def inside (m : StoreM σ α) : StoreM (Faulty σ) α := .ofFunction fun s =>
  let (result, inner) := m.on s.inner
  (result, { s with inner })

/-- An operation that a planned failure may keep from the store. -/
def guarded (point : FaultPoint) (topic : String) (m : StoreM σ α) : StoreM (Faulty σ) α := do
  if ← strikes point topic then throw (.storage ("injected " ++ point.name ++ " failure"))
  inside m

/-- Plan a failure, behind those planned before. -/
def planned (s : Faulty σ) (f : Fault) : Faulty σ := { s with plan := s.plan ++ [f] }

instance [LogStore σ] : LogStore (Faulty σ) where
  createTopic topic n := guarded .createTopic topic (LogStore.createTopic topic n)
  partitions topic := guarded .partitions topic (LogStore.partitions topic)
  append topic partition key value :=
    guarded .append topic (LogStore.append topic partition key value)
  read topic partition start limit :=
    guarded .read topic (LogStore.read topic partition start limit)
  committed group topic partition :=
    guarded .committed topic (LogStore.committed group topic partition)
  commit group topic partition next :=
    guarded .commit topic (LogStore.commit group topic partition next)
  join now group topic := guarded .join topic (LogStore.join now group topic)
  heartbeat now group topic member timeout := do
    let m ← guarded .heartbeat topic (LogStore.heartbeat now group topic member timeout)
    -- the store still has the member; only the caller is told otherwise
    if ← strikes .evict topic then return { m with members := m.members.filter (· != member) }
    return m
  leave group topic member := guarded .leave topic (LogStore.leave group topic member)

end Faulty

end WorkQueue
