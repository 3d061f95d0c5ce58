import WorkQueue.Record

/-!
# The intake channel

Both intake loops hand their records over through one channel of bounded size. A sender that finds
it full waits in line; nobody overtakes those in line. Once the receiver is gone nothing is
accepted, and what was in the channel is lost.

## Main definitions

* `Channel`, `Channel.offer`, `Channel.take?`, `Channel.close`
-/

namespace WorkQueue

/-- A record with the consumer that read it. -/
structure Delivery where
  consumer : Nat
  record : Record
  deriving Inhabited

/-- The intake loop that sends. -/
inductive Source where
  | primary
  | delayed
  deriving DecidableEq, Repr

/-- A channel between the intake loops and the queue. -/
structure Channel where
  capacity : Nat
  buffer : List Delivery := []
  /-- Senders that wait for room, the first one first. -/
  line : List Source := []
  /-- The receiver is gone. -/
  closed : Bool := false
  deriving Inhabited

/-- What becomes of an offer. -/
inductive Offer where
  | accepted (channel : Channel)
  /-- The receiver is gone. -/
  | refused
  /-- There is no room; the sender has taken its place in line. -/
  | inLine (channel : Channel)
  /-- There is still no room. -/
  | blocked

namespace Channel

/-- May this sender push now? There has to be room, and nobody else first in line. -/
def admits (c : Channel) (source : Source) : Bool :=
  decide (c.buffer.length < c.capacity) &&
    (match c.line with
      | [] => true
      | first :: _ => first == source)

/-- Offer a delivery. -/
def offer (c : Channel) (source : Source) (d : Delivery) : Offer :=
  if c.closed then .refused
  -- a sender that gets in gives up its place in line
  else if c.admits source then
    .accepted { c with buffer := c.buffer ++ [d], line := c.line.erase source }
  else if c.line.contains source then .blocked
  else .inLine { c with line := c.line ++ [source] }

/-- Give up a place in line. -/
def withdraw (c : Channel) (source : Source) : Channel := { c with line := c.line.erase source }

/-- Take the oldest delivery. -/
def take? (c : Channel) : Option (Delivery × Channel) :=
  match c.buffer with
  | [] => none
  | d :: rest => some (d, { c with buffer := rest })

/-- The receiver goes away. -/
def close (c : Channel) : Channel := { c with buffer := [], line := [], closed := true }

end Channel

end WorkQueue
