import WorkQueue.Cluster.Basic

/-!
# Polls that wait

A poll takes turns of reading until one hands out a record or fails. While there is nothing to read
it waits for its broker's next signal, up to its deadline.

A signal is noticed by comparing the broker's count with the one seen before the last turn, so one
that comes between a turn and the wait behind it is not missed.

## Main definitions

* `Polling`, `Cluster.poll?`: one poll, step by step
* `PollBoard`: polls in the background, on a clock that jumps from deadline to deadline
-/

namespace WorkQueue

/-- A poll under way. -/
structure Polling where
  deadline : Nat
  /-- The signals counted before the last turn, if that found nothing to read. -/
  seen : Option Nat := none
  deriving DecidableEq, Repr, Inhabited

/-- What a step of a poll came to. -/
inductive PollStep where
  | done (result : Except BrokerError (Option Record))
  | more (polling : Polling)

namespace Cluster

variable {σ : Type} [LogStore σ]

/-- The signals of the broker a consumer was subscribed at. -/
def signalsOf (c : Cluster σ) (index : Nat) : Nat :=
  match c.consumer? index with
  | some k => (c.broker k.broker).signals
  | none => 0

/-- A poll that begins now. -/
def beginPoll (c : Cluster σ) (timeout : Nat) : Polling := { deadline := c.now + timeout }

/-- One step of a poll of a consumer; `none` if it has to wait. -/
def poll? (index : Nat) (p : Polling) (c : Cluster σ) : Option (PollStep × Cluster σ) :=
  let signals := c.signalsOf index
  -- nothing has come since the last turn found nothing
  if p.seen = some signals then
    if p.deadline ≤ c.now then some (.done (.ok none), c) else none
  else
    let (result, after) := (turn index).on c
    match result with
    | .error e => some (.done (.error e), after)
    | .ok (.record r) => some (.done (.ok (some r)), after)
    | .ok .filled => some (.more { p with seen := none }, after)
    | .ok .idle =>
      -- the count is the one from before the turn
      if p.deadline ≤ c.now then some (.done (.ok none), after)
      else some (.more { p with seen := some signals }, after)

end Cluster

/-! ## §1 Polls in the background -/

/-- A poll that has been started. -/
structure StartedPoll where
  consumer : Nat
  started : Nat
  polling : Polling
  /-- Result and time of the end. -/
  ended : Option (Except BrokerError (Option Record) × Nat) := none
  deriving Inhabited

/-- A cluster with polls in the background. Of several polls of one consumer only the oldest one
that has not ended takes turns. -/
structure PollBoard (σ : Type) where
  cluster : Cluster σ
  polls : Array StartedPoll := #[]
  /-- Consumers that have been given up while a poll of theirs was under way. -/
  abandoned : List Nat := []
  deriving Inhabited

namespace PollBoard

variable {σ : Type} [LogStore σ]

/-- Is this the poll that takes the consumer's turns? -/
def holdsTurn (b : PollBoard σ) (i : Nat) : Bool :=
  match b.polls[i]? with
  | none => false
  | some p =>
    p.ended.isNone &&
      !(b.polls.toList.take i).any fun q => q.ended.isNone && q.consumer == p.consumer

/-- Is a poll of a consumer under way? -/
def busy (b : PollBoard σ) (consumer : Nat) : Bool :=
  b.polls.any fun p => p.ended.isNone && p.consumer == consumer

/-- Let given-up consumers leave that no poll holds any more. -/
def release (b : PollBoard σ) : PollBoard σ :=
  let (held, free) := b.abandoned.partition b.busy
  { b with abandoned := held, cluster := free.foldl (fun c i => c.close i) b.cluster }

/-- One step of a poll; `none` if it has to wait. -/
def step? (b : PollBoard σ) (i : Nat) : Option (PollBoard σ) :=
  if b.holdsTurn i then
    match b.polls[i]? with
    | none => none
    | some p =>
      match b.cluster.poll? p.consumer p.polling with
      | none => none
      | some (.more polling, cluster) =>
        some { b with cluster, polls := b.polls.setIfInBounds i { p with polling } }
      | some (.done result, cluster) =>
        let ended := { p with ended := some (result, cluster.now) }
        some ({ b with cluster, polls := b.polls.setIfInBounds i ended } : PollBoard σ).release
  else none

/-- One step of the first poll that need not wait. -/
def anyStep? (b : PollBoard σ) : Option (PollBoard σ) :=
  (List.range b.polls.size).findSome? b.step?

/-- Take steps until all polls wait. -/
def settle : (fuel : Nat) → PollBoard σ → PollBoard σ
  | 0, b => b
  | fuel + 1, b =>
    match b.anyStep? with
    | some b => settle fuel b
    | none => b

/-- Steps that all polls together take at one moment at most: a fill, a record and a wait each, for
every time that they are woken up. -/
def patience (b : PollBoard σ) : Nat := 4 * (b.polls.size + 1) * (b.abandoned.length + 1)

/-- Take steps until all polls wait. -/
def rest (b : PollBoard σ) : PollBoard σ := b.settle b.patience

/-- The first deadline of a poll that waits. -/
def nextDeadline? (b : PollBoard σ) : Option Nat :=
  ((List.range b.polls.size).filter b.holdsTurn).filterMap
    (fun i => b.polls[i]?.map (·.polling.deadline)) |>.min?

/-- Set the clock of the timers. -/
def setClock (b : PollBoard σ) (time : Nat) : PollBoard σ :=
  { b with cluster := { b.cluster with now := time } }

/-- Let time pass up to `target`, deadline by deadline. What becomes possible at `target` itself is
left for later. -/
def passUntil (target : Nat) : (fuel : Nat) → PollBoard σ → PollBoard σ
  | 0, b => b
  | fuel + 1, b =>
    if target ≤ b.cluster.now then b
    else
      let b := b.rest
      match b.nextDeadline? with
      | none => b.setClock target
      | some d =>
        if d < target then passUntil target fuel (b.setClock (max d b.cluster.now))
        else b.setClock target

/-- Let some milliseconds pass. Each jump but the last ends a poll, which bounds their number. -/
def advance (b : PollBoard σ) (ms : Nat) : PollBoard σ :=
  b.passUntil (b.cluster.now + ms) (b.polls.size + 2)

/-- Start a poll and let it run until it waits. Tells its number. -/
def start (b : PollBoard σ) (consumer timeout : Nat) : Nat × PollBoard σ :=
  let p : StartedPoll :=
    { consumer, started := b.cluster.now, polling := b.cluster.beginPoll timeout }
  (b.polls.size, ({ b with polls := b.polls.push p } : PollBoard σ).rest)

/-- Has a poll ended? -/
def hasEnded (b : PollBoard σ) (i : Nat) : Bool :=
  match b.polls[i]? with
  | some p => p.ended.isSome
  | none => true

/-- Let time pass until a poll has ended, deadline by deadline. -/
def passUntilEnd (i : Nat) : (fuel : Nat) → PollBoard σ → PollBoard σ
  | 0, b => b
  | fuel + 1, b =>
    let b := b.rest
    if b.hasEnded i then b
    else
      match b.nextDeadline? with
      | none => b
      | some d => passUntilEnd i fuel (b.setClock (max d b.cluster.now))

/-- Let time pass until a poll has ended. Tells its result and how long it took. -/
def await (b : PollBoard σ) (i : Nat) :
    Except BrokerError (Option Record) × Nat × PollBoard σ :=
  let b := b.passUntilEnd i (b.polls.size + 2)
  match b.polls[i]? with
  | some { started, ended := some (result, time), .. } => (result, time - started, b)
  | _ => (.ok none, 0, b)

/-- Poll a consumer and wait for the result. -/
def poll (b : PollBoard σ) (consumer timeout : Nat) :
    Except BrokerError (Option Record) × PollBoard σ :=
  let (i, b) := b.start consumer timeout
  let (result, _, b) := b.await i
  (result, { b with polls := b.polls.pop })

/-- Poll without waiting until there is nothing left, `limit` records have been handed out, or a
poll fails. -/
def drain (consumer : Nat) : (limit : Nat) → PollBoard σ → List Record × Option BrokerError × PollBoard σ
  | 0, b => ([], none, b)
  | limit + 1, b =>
    match b.poll consumer 0 with
    | (.error e, b) => ([], some e, b)
    | (.ok none, b) => ([], none, b)
    | (.ok (some r), b) =>
      let (records, failure, b) := drain consumer limit b
      (r :: records, failure, b)

/-- Give up a consumer without closing it: it leaves its group once no poll holds it. -/
def abandon (b : PollBoard σ) (consumer : Nat) : PollBoard σ :=
  ({ b with abandoned := b.abandoned ++ [consumer] } : PollBoard σ).release

/-- Run an operation on the cluster. -/
def onCluster {α : Type} (b : PollBoard σ) (m : ClusterM σ α) :
    Except BrokerError α × PollBoard σ :=
  let (result, cluster) := m.on b.cluster
  (result, { b with cluster })

end PollBoard

end WorkQueue
