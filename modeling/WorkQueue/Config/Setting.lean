import WorkQueue.Config.Basic

/-!
# Setting options one by one

A configuration can be built by a sequence of settings, each of which replaces what earlier ones
set. Nothing is checked on the way; `Config.validate` judges the result.
-/

namespace WorkQueue

/-- One step in building a configuration. -/
inductive Setting where
  /-- Replace all options. -/
  | all (config : Config)
  | groupId (name : String)
  | primaryTopic (topic : String)
  | delayedTopic (topic : String)
  | deadLetterTopic (topic : String)
  | delayedBase (period : Duration)
  | pollTimeout (timeout : Duration)
  | errorPause (pause : Duration)
  | maxParallelTasks (n : Nat)
  | intakeCapacity (n : Nat)
  | maxTaskRetries (n : Nat)
  /-- Bound publishing again by a number of attempts and a total time. -/
  | republish (attempts : Nat) (budget : Duration)
  deriving DecidableEq, Repr

/-- The configuration behind a setting. -/
def Setting.apply (c : Config) : Setting → Config
  | all config => config
  | groupId name => { c with groupId := name }
  | primaryTopic topic => { c with primaryTopic := topic }
  | delayedTopic topic => { c with delayedTopic := topic }
  | deadLetterTopic topic => { c with deadLetterTopic := some topic }
  | delayedBase period => { c with delayedBase := period }
  | pollTimeout timeout => { c with pollTimeout := timeout }
  | errorPause pause => { c with errorPause := pause }
  | maxParallelTasks n => { c with maxParallelTasks := n }
  | intakeCapacity n => { c with intakeCapacity := n }
  | maxTaskRetries n => { c with maxTaskRetries := n }
  | republish attempts budget =>
    { c with republishAttempts := attempts, republishBudget := budget }

/-- The configuration that a sequence of settings builds from the defaults. -/
def Config.build (settings : List Setting) : Config := settings.foldl Setting.apply Config.default

end WorkQueue
