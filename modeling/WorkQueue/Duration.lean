import WorkQueue.Number.Word

/-!
# Spans of time

A span is a number of nanoseconds. Timers have a resolution of one millisecond and fire at the end
of the millisecond their time falls in.

## Main definitions

* `Duration.ofMillis`, `Duration.toMillis`: whole milliseconds
* `Duration.timerMillis`: when a timer for the span fires
-/

namespace WorkQueue

/-- A span of time in nanoseconds. -/
structure Duration where
  nanos : Nat
  deriving DecidableEq, Repr, Inhabited

namespace Duration

/-- Nanoseconds in a millisecond. -/
def nanosPerMilli : Nat := 1000000

/-- Nanoseconds in a second. -/
def nanosPerSecond : Nat := 1000000000

/-- A span of seconds and nanoseconds. -/
def ofParts (seconds nanos : Nat) : Duration := ⟨seconds * nanosPerSecond + nanos⟩

/-- A span of whole milliseconds. -/
def ofMillis (ms : Nat) : Duration := ⟨ms * nanosPerMilli⟩

/-- A span of whole seconds. -/
def ofSeconds (s : Nat) : Duration := ⟨s * nanosPerSecond⟩

/-- Whole seconds of a span. -/
def seconds (d : Duration) : Nat := d.nanos / nanosPerSecond

/-- What a span has beyond its whole seconds. -/
def subsecNanos (d : Duration) : Nat := d.nanos % nanosPerSecond

/-- Whole milliseconds of a span, rounded down. -/
def toMillis (d : Duration) : Nat := d.nanos / nanosPerMilli

/-- Whole milliseconds of a span as a 64-bit word, high bits dropped. -/
def millisWord (d : Duration) : Nat := lowWord d.toMillis

/-- Milliseconds until a timer for the span fires: rounded up. -/
def timerMillis (d : Duration) : Nat := (d.nanos + (nanosPerMilli - 1)) / nanosPerMilli

@[simp] theorem toMillis_ofMillis (ms : Nat) : (ofMillis ms).toMillis = ms := by
  simp [ofMillis, toMillis, nanosPerMilli]

@[simp] theorem timerMillis_ofMillis (ms : Nat) : (ofMillis ms).timerMillis = ms := by
  simp only [ofMillis, timerMillis, nanosPerMilli]
  omega

end Duration

end WorkQueue
