import WorkQueue.Execution.Basic
import WorkQueue.Store.Table

/-!
# The history of executions and commits

Outcomes and commits are written to two tables, each row with the next number of its table. The
tables have to be made before the first row; until then every statement on them fails. An error
text is cut to its first 2000 characters.

## Main definitions

* `History`, `History.migrate`
* `History.resolved`, `History.committed`: writing
-/

namespace WorkQueue

/-- The outcome of an execution as it is kept. -/
structure ExecutionRow where
  id : Nat
  resolution : Resolution
  deriving DecidableEq, Repr

/-- A committed offset as it is kept. -/
structure CommitRow where
  id : Nat
  /-- The consumer's number as a signed word. -/
  consumer : Int
  topic : String
  partition : Int
  offset : Int
  deriving DecidableEq, Repr

/-- The tables, once they have been made. -/
structure History where
  migrated : Bool := false
  executions : Array ExecutionRow := #[]
  commits : Array CommitRow := #[]
  deriving Inhabited

/-- A statement on a table that does not exist. -/
structure MissingTable where
  name : String
  deriving DecidableEq, Repr

/-- The wording of a failed statement. -/
def MissingTable.message (e : MissingTable) : String :=
  "error returned from database: (code: 1) no such table: " ++ e.name

namespace History

/-- Characters of an error text that are kept. -/
def errorLimit : Nat := 2000

/-- The front of an error text that is kept. -/
def cut (error : String) : String := String.ofList (error.toList.take errorLimit)

/-- The table of outcomes. -/
def executionTable : MissingTable := ⟨"tasklog_executions"⟩

/-- The table of commits. -/
def commitTable : MissingTable := ⟨"tasklog_commits"⟩

/-- Make the tables, unless they are there. -/
def migrate (h : History) : History := { h with migrated := true }

/-- Write an outcome. -/
def resolved (h : History) (r : Resolution) : Except MissingTable History :=
  if h.migrated then
    .ok { h with executions :=
      h.executions.push ⟨h.executions.size + 1, { r with error := r.error.map cut }⟩ }
  else .error executionTable

/-- Write the offset committed for one partition. -/
def committedOne (consumer : Nat) (topic : String) (h : History) (offset : Int × Int) :
    Except MissingTable History :=
  if h.migrated then
    .ok { h with commits :=
      h.commits.push ⟨h.commits.size + 1, toWord consumer, topic, offset.1, offset.2⟩ }
  else .error commitTable

/-- Write the offsets committed for one consumer. -/
def committed (h : History) (consumer : Nat) (topic : String) (offsets : List (Int × Int)) :
    Except MissingTable History :=
  offsets.foldlM (committedOne consumer topic) h

/-- All outcomes. -/
def listExecutions (h : History) : Except MissingTable (List ExecutionRow) :=
  if h.migrated then .ok h.executions.toList else .error executionTable

/-- All commits. -/
def listCommits (h : History) : Except MissingTable (List CommitRow) :=
  if h.migrated then .ok h.commits.toList else .error commitTable

end History

end WorkQueue
