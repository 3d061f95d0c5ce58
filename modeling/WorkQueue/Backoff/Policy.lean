import WorkQueue.Duration

/-!
# Backoff policies

A policy bounds the attempts at an operation and gives the wait behind each failed one. Waits of
an exponential policy double from attempt to attempt up to a cap; they are whole milliseconds in
64-bit words, and neither the power nor the product runs over: both stop at the largest word.

## Main definitions

* `Policy`, `Policy.attemptLimit`, `Policy.delay?`
* `Jitter`: how a wait is shortened, by at most half
-/

namespace WorkQueue

/-- How often an operation is tried, and with what waits in between. -/
inductive Policy where
  /-- A single attempt. -/
  | single
  /-- The same wait behind every failed attempt. -/
  | fixed (attempts : Nat) (delay : Duration)
  /-- Waits that double, up to a cap. -/
  | exponential (attempts : Nat) (initial cap : Duration)
  deriving DecidableEq, Repr

namespace Policy

/-- Doubling waits from 200 milliseconds up to ten seconds. -/
def standard (attempts : Nat) : Policy := .exponential attempts (.ofMillis 200) (.ofSeconds 10)

/-- The number of attempts the policy allows; the first one is always made. -/
def attemptLimit : Policy → Nat
  | single => 0
  | fixed attempts _ => attempts
  | exponential attempts _ _ => attempts

/-- The `k`-th power of two, or the largest word if that is less. -/
def saturatingPower (k : Nat) : Nat := if k < 64 then pow2 k else maxWord64

/-- The wait behind failed attempt number `attempt`, counted from one, if the policy has one. -/
def delay? (attempt : Nat) : Policy → Option Duration
  | single => none
  | fixed attempts delay => if attempt ≤ attempts then some delay else none
  | exponential attempts initial cap =>
    if attempt ≤ attempts then
      let grown := min (initial.millisWord * saturatingPower (attempt - 1)) maxWord64
      some (.ofMillis (min grown cap.millisWord))
    else none

end Policy

/-- The waits taken for the delays of a policy: the `n`-th wait for a delay of so many
nanoseconds. -/
abbrev Jitter := Nat → Duration → Duration

namespace Jitter

/-- Every wait lies between half the delay and the delay. -/
def Fair (jitter : Jitter) : Prop :=
  ∀ n d, d.nanos ≤ 2 * (jitter n d).nanos ∧ (jitter n d).nanos ≤ d.nanos

/-- A wait lies between half the delay and the delay. -/
def within (delay wait : Duration) : Bool :=
  delay.nanos ≤ 2 * wait.nanos && wait.nanos ≤ delay.nanos

/-- Three quarters of the delay, in the middle of the allowed range. -/
def middle : Jitter := fun _ d => ⟨d.nanos - d.nanos / 4⟩

theorem middle_fair : Fair middle := by
  intro n d
  constructor <;> simp only [middle] <;> omega

end Jitter

end WorkQueue
