import WorkQueue.Config.Basic

/-!
# Configuration by variables

A variable `TASKLOG_X` sets the option X. Later variables win over earlier ones, unknown names are
ignored, and the first number that cannot be read ends the reading. The result is validated.

## Main definitions

* `readCount?`: a decimal number below a bound
* `Config.assign`: the effect of one variable
* `Config.ofVariables`: a whole list of them
-/

namespace WorkQueue

/-- A decimal number of at most `largest`: ASCII digits, with an optional plus sign in front. -/
def readCount? (largest : Nat) (text : String) : Option Nat :=
  let digits := match text.toList with
    | '+' :: rest => rest
    | all => all
  if digits.isEmpty || !digits.all Char.isDigit then none
  else
    let n := digits.foldl (fun n c => n * 10 + (c.toNat - '0'.toNat)) 0
    if n ≤ largest then some n else none

namespace Config

/-- What the names of all option variables start with. -/
def variableMark : String := "TASKLOG_"

/-- The option a variable names, if its name has the mark. -/
def optionOf? (name : String) : Option String :=
  if name.startsWith variableMark then some (name.drop variableMark.length).toString else none

/-- The configuration with one option set from a text, `none` if the text is not a number the
option can hold. An option that does not exist changes nothing. -/
def setOption? (c : Config) (option value : String) : Option Config :=
  let millis := (readCount? maxWord64 value).map Duration.ofMillis
  match option with
  | "BOOTSTRAP_SERVERS" => some { c with bootstrapServers := value }
  | "GROUP_ID" => some { c with groupId := value }
  | "PRIMARY_TOPIC" => some { c with primaryTopic := value }
  | "DELAYED_TOPIC" => some { c with delayedTopic := value }
  | "DEAD_LETTER_TOPIC" =>
    some { c with deadLetterTopic := if value.isEmpty then none else some value }
  | "DELAYED_BASE_MS" => millis.map fun d => { c with delayedBase := d }
  | "MAX_PARALLEL_TASKS" => (readCount? maxWord64 value).map fun n => { c with maxParallelTasks := n }
  | "INTAKE_CAPACITY" => (readCount? maxWord64 value).map fun n => { c with intakeCapacity := n }
  | "POLL_TIMEOUT_MS" => millis.map fun d => { c with pollTimeout := d }
  | "ERROR_PAUSE_MS" => millis.map fun d => { c with errorPause := d }
  | "MAX_TASK_RETRIES" => (readCount? maxWord32 value).map fun n => { c with maxTaskRetries := n }
  | "REPUBLISH_ATTEMPTS" => (readCount? maxWord32 value).map fun n => { c with republishAttempts := n }
  | "REPUBLISH_BUDGET_MS" => millis.map fun d => { c with republishBudget := d }
  | _ => some c

/-- The effect of one variable on a configuration. -/
def assign (c : Config) (pair : String × String) : Except ConfigError Config :=
  match optionOf? pair.1 with
  | none => .ok c
  | some option =>
    match c.setOption? option pair.2 with
    | some c => .ok c
    | none => .error (.invalidVariable pair.1 pair.2)

/-- The defaults under a list of variables, front to back, if the result is usable. -/
def ofVariables (settings : List (String × String)) : Except ConfigError Config := do
  let c ← settings.foldlM assign Config.default
  c.validate
  return c

end Config

end WorkQueue
