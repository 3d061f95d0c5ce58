import WorkQueue.Config.Basic
import WorkQueue.Cluster.Polling
import WorkQueue.Intake.Channel

/-!
# The intake loops

The primary loop hands over records as they arrive. The delayed loop wakes up once per period,
reads what is there with a pause of one period between two records, and hands over the whole batch
once a poll finds nothing more or fails; a failed task therefore rests for a while before it runs
again. Both stop when the token fires or their consumer is closed, and pause behind other errors.

The loops do not depend on where polls come from: `Primary.afterPoll` and `Delayed.afterPoll` say
how each goes on from the result of one.

## Main definitions

* `Primary`, `Primary.step?`
* `Delayed`, `Delayed.step?`, `nextTick`
-/

namespace WorkQueue

/-- What an intake loop works with. -/
structure Feed (σ : Type) where
  cluster : Cluster σ
  channel : Channel
  deriving Inhabited

/-- What an intake loop goes by: its consumer and the times of its configuration, in
milliseconds. -/
structure IntakeSettings where
  /-- Place of the consumer in the cluster. -/
  place : Nat
  /-- Number of the consumer. -/
  consumer : Nat
  pollTimeout : Nat
  errorPause : Nat
  /-- Period of the delayed loop. -/
  period : Nat
  deriving DecidableEq, Repr, Inhabited

/-- The settings of a configuration for one consumer. -/
def IntakeSettings.ofConfig (c : Config) (place consumer : Nat) : IntakeSettings where
  place
  consumer
  pollTimeout := c.pollTimeout.timerMillis
  errorPause := c.errorPause.timerMillis
  period := c.delayedBase.timerMillis

/-! ## §1 The primary loop -/

/-- Where the primary loop stands. -/
inductive Primary where
  /-- About to poll. -/
  | ready
  | polling (polling : Polling)
  | pushing (record : Record)
  | pausing (wake : Nat)
  | stopped
  deriving Inhabited

namespace Primary

/-- Where the loop goes from the result of a poll at time `now`. -/
def afterPoll (now errorPause : Nat) : Except BrokerError (Option Record) → Primary
  | .ok (some r) => .pushing r
  | .ok none => .ready
  | .error .closed => .stopped
  | .error _ => .pausing (now + errorPause)

/-- When a waiting loop goes on by itself. -/
def due? : Primary → Option Nat
  | polling p => some p.deadline
  | pausing wake => some wake
  | _ => none

variable {σ : Type} [LogStore σ]

/-- One step of the loop; `none` if it has to wait or has stopped. -/
def step? (s : IntakeSettings) (fired : Bool) (loop : Primary) (f : Feed σ) :
    Option (Primary × Feed σ) :=
  match loop with
  | ready =>
    if fired || f.channel.closed then some (stopped, f)
    else some (polling (f.cluster.beginPoll s.pollTimeout), f)
  | polling p =>
    if fired || f.channel.closed then some (stopped, f)
    else
      match f.cluster.poll? s.place p with
      | none => none
      | some (.more p, cluster) => some (polling p, { f with cluster })
      | some (.done result, cluster) =>
        some (afterPoll cluster.now s.errorPause result, { f with cluster })
  | pushing r =>
    -- a record that is held when the token fires is dropped, and read again from the position
    if fired then some (stopped, { f with channel := f.channel.withdraw .primary })
    else
      match f.channel.offer .primary ⟨s.consumer, r⟩ with
      | .accepted channel => some (ready, { f with channel })
      | .refused => some (stopped, f)
      | .inLine channel => some (pushing r, { f with channel })
      | .blocked => none
  | pausing wake =>
    if fired then some (stopped, f)
    else if wake ≤ f.cluster.now then some (ready, f)
    else none
  | stopped => none

end Primary

/-! ## §2 The delayed loop -/

/-- What the delayed loop is doing. -/
inductive DelayedPhase where
  /-- Waiting for the next tick. -/
  | ticking
  /-- Polling for more behind the batch read so far. -/
  | draining (batch : List Record) (polling : Polling)
  /-- Resting before a record joins the batch. -/
  | spacing (batch : List Record) (record : Record) (wake : Nat)
  /-- Handing over the batch, in front of what the last poll failed with. -/
  | releasing (batch : List Record) (failure : Option BrokerError)
  | pausing (wake : Nat)
  | stopped
  deriving Inhabited

/-- The delayed loop: what it is doing, and when the next tick is due. -/
structure Delayed where
  due : Nat
  phase : DelayedPhase := .ticking
  deriving Inhabited

/-- Lateness, in milliseconds, up to which a tick keeps its rhythm. -/
def tickTolerance : Nat := 5

/-- When the tick behind one that was due at `due` and is taken at `now` falls: one period after it
was due, or one period from now if it is too late. -/
def nextTick (period due now : Nat) : Nat :=
  if due + tickTolerance < now then now + period else due + period

namespace Delayed

/-- The loop at its start. The first tick falls at once and is used up. -/
def start (now period : Nat) : Delayed := { due := now + period }

/-- Go on draining: poll without waiting. -/
def drain (now : Nat) (batch : List Record) : DelayedPhase := .draining batch { deadline := now }

/-- Where the loop goes from the result of a poll at time `now`, behind the batch read so far. -/
def afterPoll (now period : Nat) (batch : List Record) :
    Except BrokerError (Option Record) → DelayedPhase
  -- the first record of a batch needs no rest
  | .ok (some r) => if batch.isEmpty then drain now [r] else .spacing batch r (now + period)
  | .ok none => .releasing batch none
  | .error e => .releasing batch (some e)

/-- Where the loop goes once its batch has been handed over. -/
def afterRelease (now errorPause : Nat) : Option BrokerError → DelayedPhase
  | none => .ticking
  | some .closed => .stopped
  | some _ => .pausing (now + errorPause)

/-- When a waiting loop goes on by itself. -/
def due? (d : Delayed) : Option Nat :=
  match d.phase with
  | .ticking => some d.due
  | .spacing _ _ wake => some wake
  | .pausing wake => some wake
  | _ => none

variable {σ : Type} [LogStore σ]

/-- One step of the loop; `none` if it has to wait or has stopped. While it reads a batch it does
not look whether the receiver is gone. -/
def step? (s : IntakeSettings) (fired : Bool) (d : Delayed) (f : Feed σ) :
    Option (Delayed × Feed σ) :=
  let now := f.cluster.now
  match d.phase with
  | .ticking =>
    if fired || f.channel.closed then some ({ d with phase := .stopped }, f)
    else if d.due ≤ now then some ({ due := nextTick s.period d.due now, phase := drain now [] }, f)
    else none
  | .draining batch p =>
    if fired then some ({ d with phase := .stopped }, f)
    else
      match f.cluster.poll? s.place p with
      | none => none
      | some (.more p, cluster) => some ({ d with phase := .draining batch p }, { f with cluster })
      | some (.done result, cluster) =>
        some ({ d with phase := afterPoll now s.period batch result }, { f with cluster })
  | .spacing batch r wake =>
    if fired then some ({ d with phase := .stopped }, f)
    else if wake ≤ now then some ({ d with phase := drain now (batch ++ [r]) }, f)
    else none
  | .releasing [] failure => some ({ d with phase := afterRelease now s.errorPause failure }, f)
  | .releasing (r :: rest) failure =>
    -- one record at a time; what is left of the batch is dropped with the token
    if fired then
      some ({ d with phase := .stopped }, { f with channel := f.channel.withdraw .delayed })
    else
      match f.channel.offer .delayed ⟨s.consumer, r⟩ with
      | .accepted channel => some ({ d with phase := .releasing rest failure }, { f with channel })
      | .refused => some ({ d with phase := .stopped }, f)
      | .inLine channel => some (d, { f with channel })
      | .blocked => none
  | .pausing wake =>
    if fired then some ({ d with phase := .stopped }, f)
    else if wake ≤ now then some ({ d with phase := .ticking }, f)
    else none
  | .stopped => none

/-- Has the loop stopped? -/
def hasStopped (d : Delayed) : Bool :=
  match d.phase with
  | .stopped => true
  | _ => false

end Delayed

/-- Has the loop stopped? -/
def Primary.hasStopped : Primary → Bool
  | stopped => true
  | _ => false

end WorkQueue
