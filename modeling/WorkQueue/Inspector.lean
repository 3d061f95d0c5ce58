import WorkQueue.Json.Printer
import WorkQueue.Ledger.Basic

/-!
# Looking at a ledger over HTTP

Two paths are served, both only for reading: a liveness check and the ledger's snapshot as JSON.
What stands behind the path is ignored.
-/

namespace WorkQueue

namespace Inspector

/-- Answer to a request. -/
structure Response where
  status : Nat
  body : String
  deriving DecidableEq, Repr

/-- A number or null. -/
def optionalInt : Option Int → Json
  | some n => .int n
  | none => .null

/-- One queue of a snapshot, its members in a fixed order. -/
def queueJson (q : Ledger.QueueSnapshot) : Json :=
  .obj [
    ("consumer", .int q.key.consumer),
    ("partition", .int q.key.partition),
    ("pending", .int q.pending),
    ("head_offset", optionalInt q.headOffset),
    ("head_state", match q.headState with | some s => .str s.name | none => .null)]

/-- The snapshot of a ledger as JSON. -/
def snapshotJson (l : Ledger) : Json := .arr (l.snapshot.map queueJson)

/-- What is found at a path. -/
def body? (l : Ledger) (path : String) : Option String :=
  if path = "/healthz" then some "ok"
  else if path = "/api/ledger" then some (snapshotJson l).render
  else none

/-- The part of a request target in front of the query and the fragment. -/
def pathOf (target : String) : String :=
  String.ofList (target.toList.takeWhile fun c => c ≠ '?' ∧ c ≠ '#')

/-- Answer a request: the path has to be known and the method one that reads. -/
def respond (l : Ledger) (method target : String) : Response :=
  match body? l (pathOf target) with
  | none => ⟨404, ""⟩
  | some body =>
    if method = "GET" then ⟨200, body⟩
    else if method = "HEAD" then ⟨200, ""⟩
    else ⟨405, ""⟩

end Inspector

end WorkQueue
