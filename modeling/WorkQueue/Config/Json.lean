import WorkQueue.Config.Basic
import WorkQueue.Json.Printer
import WorkQueue.Json.Shape

/-!
# Configuration as JSON

A configuration is written with all its options, in declaration order, spans as whole milliseconds.
It is read from an object with any of them, or from a list of their values; what is missing keeps
its default.

## Main definitions

* `Config.members`, `Config.toJson`, `Config.render`: the written form
* `Config.record`, `Config.parse`: the reading
-/

namespace WorkQueue

namespace Config

/-! ## §1 Writing -/

/-- Milliseconds of a span as a 64-bit word. -/
def millisWord (d : Duration) : Json := .int (d.millisWord : Int)

/-- All options with their names, in declaration order. -/
def members (c : Config) : List (String × Json) := [
  ("bootstrap_servers", .str c.bootstrapServers),
  ("group_id", .str c.groupId),
  ("primary_topic", .str c.primaryTopic),
  ("delayed_topic", .str c.delayedTopic),
  ("dead_letter_topic", match c.deadLetterTopic with | some t => .str t | none => .null),
  ("delayed_base_ms", millisWord c.delayedBase),
  ("max_parallel_tasks", .int c.maxParallelTasks),
  ("intake_capacity", .int c.intakeCapacity),
  ("poll_timeout_ms", millisWord c.pollTimeout),
  ("error_pause_ms", millisWord c.errorPause),
  ("max_task_retries", .int c.maxTaskRetries),
  ("republish_attempts", .int c.republishAttempts),
  ("republish_budget_ms", millisWord c.republishBudget)]

/-- The configuration as a value, its members sorted. -/
def toJson (c : Config) : Json := .ofMembers c.members

/-- The compact text of a configuration, its options in declaration order. -/
def render (c : Config) : String := (Json.obj c.members).render

/-! ## §2 Reading -/

/-- A span given in milliseconds. -/
def millis : Shape Duration := Shape.word64.map Duration.ofMillis

/-- A configuration as a record. -/
def record : RecordShape Config where
  title := "struct QueueConfig"
  fields := [
    .of "bootstrap_servers" Shape.text fun v c => { c with bootstrapServers := v },
    .of "group_id" Shape.text fun v c => { c with groupId := v },
    .of "primary_topic" Shape.text fun v c => { c with primaryTopic := v },
    .of "delayed_topic" Shape.text fun v c => { c with delayedTopic := v },
    .of "dead_letter_topic" Shape.text.optional fun v c => { c with deadLetterTopic := v },
    .of "delayed_base_ms" millis fun v c => { c with delayedBase := v },
    .of "max_parallel_tasks" Shape.size fun v c => { c with maxParallelTasks := v },
    .of "intake_capacity" Shape.size fun v c => { c with intakeCapacity := v },
    .of "poll_timeout_ms" millis fun v c => { c with pollTimeout := v },
    .of "error_pause_ms" millis fun v c => { c with errorPause := v },
    .of "max_task_retries" Shape.word32 fun v c => { c with maxTaskRetries := v },
    .of "republish_attempts" Shape.word32 fun v c => { c with republishAttempts := v },
    .of "republish_budget_ms" millis fun v c => { c with republishBudget := v }]
  blank := Config.default

/-- Read a configuration from a text. -/
def parse (text : String) : Except JsonError Config := record.parse text.toUTF8

end Config

end WorkQueue
