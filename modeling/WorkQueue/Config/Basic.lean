import WorkQueue.Duration

/-!
# Options of a queue

Every option has a default. A configuration is usable if its names are there, its topics have one
role each and its counts are not zero; `Config.validate` names the first option that is not.

## Main definitions

* `Config`, whose field defaults are the option defaults
* `ConfigError`, `Config.validate`
-/

namespace WorkQueue

/-- Options of a task queue. -/
structure Config where
  /-- Address of the broker. -/
  bootstrapServers : String := "sqlite::memory:"
  groupId : String := "tasklog"
  primaryTopic : String := "tasks"
  delayedTopic : String := "tasks-delayed-1"
  /-- Where a task goes that is out of retries; it is dropped if there is no such topic. -/
  deadLetterTopic : Option String := none
  /-- Period of the drain of the delayed topic, and pause between two records it takes. -/
  delayedBase : Duration := .ofSeconds 60
  maxParallelTasks : Nat := 100
  intakeCapacity : Nat := 10000
  pollTimeout : Duration := .ofSeconds 1
  /-- Pause behind a failed poll. -/
  errorPause : Duration := .ofSeconds 1
  maxTaskRetries : Nat := 10
  republishAttempts : Nat := 5
  republishBudget : Duration := .ofSeconds 30
  deriving DecidableEq, Repr, Inhabited

/-- The configuration of defaults. -/
def Config.default : Config := {}

/-- What is wrong with a configuration. -/
inductive ConfigError where
  /-- A count or span that must not be zero. -/
  | zero (field : String)
  /-- A name that must not be empty. -/
  | empty (field : String)
  /-- A topic with two roles. -/
  | duplicateTopic (topic : String)
  /-- A variable whose value is not a number of its range. -/
  | invalidVariable (name value : String)
  deriving DecidableEq, Repr

/-- The wording of a configuration error. -/
def ConfigError.message : ConfigError → String
  | zero field => field ++ " must be greater than zero"
  | empty field => field ++ " must not be empty"
  | duplicateTopic topic => "topic '" ++ topic ++ "' is used for more than one role"
  | invalidVariable name value => "invalid value for " ++ name ++ ": " ++ value

namespace Config

/-- The first thing wrong with a configuration: names, then counts, then topic roles. -/
def firstFault (c : Config) : Option ConfigError :=
  if c.groupId.isEmpty then some (.empty "group_id")
  else if c.primaryTopic.isEmpty then some (.empty "primary_topic")
  else if c.delayedTopic.isEmpty then some (.empty "delayed_topic")
  else if c.maxParallelTasks = 0 then some (.zero "max_parallel_tasks")
  else if c.intakeCapacity = 0 then some (.zero "intake_capacity")
  else if c.delayedBase.nanos = 0 then some (.zero "delayed_base_ms")
  else if c.republishAttempts = 0 then some (.zero "republish_attempts")
  else if c.primaryTopic = c.delayedTopic then some (.duplicateTopic c.primaryTopic)
  else
    match c.deadLetterTopic with
    | none => none
    | some t =>
      if t = c.primaryTopic ∨ t = c.delayedTopic then some (.duplicateTopic t) else none

/-- Accept a configuration or name what is wrong with it. -/
def validate (c : Config) : Except ConfigError Unit :=
  match c.firstFault with
  | some e => .error e
  | none => .ok ()

end Config

end WorkQueue
