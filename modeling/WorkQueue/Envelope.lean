import WorkQueue.Json.Printer
import WorkQueue.Json.Shape

/-!
# Task envelopes

A task travels as `type`, `payload` and `executeCount`, in this order; the counter is left out until
the task has been retried once. A payload starts as any value a program may hold, which is more
than JSON can write.

## Main definitions

* `Envelope`, with `Envelope.attempts` and `Envelope.nextAttempt`
* `Envelope.encode`, `Envelope.decode`: the wire form
* `RawPayload`: what a program may offer as a payload; `RawPayload.toJson` refuses the rest
-/

namespace WorkQueue

/-! ## §1 Payloads before they are written -/

/-- A key of a map that a program offers as part of a payload. -/
inductive RawKey where
  | text (s : String)
  | int (n : Int)
  | list
  deriving DecidableEq, Repr

/-- A value that a program offers as a payload. -/
inductive RawPayload where
  | json (v : Json)
  /-- A real number that is infinite or not a number. -/
  | notFinite
  /-- A whole number of any size. -/
  | int (n : Int)
  | list (items : List RawPayload)
  | map (entries : List (RawKey × RawPayload))

namespace RawKey

/-- The member name of a key. -/
def name : RawKey → Except JsonError String
  | text s => .ok s
  | int n => .ok (toString n)
  | list => .error .keyNotString

end RawKey

namespace RawPayload

mutual

/-- The JSON value of a payload. What is not finite becomes null; a whole number has to fit a
64-bit word and a key has to be a text or a whole number. -/
def toJson : RawPayload → Except JsonError Json
  | json v => .ok v
  | notFinite => .ok .null
  | int n => if Json.fitsWord n then .ok (.int n) else .error .numberOutOfRange
  | list items => return .arr (← itemsToJson items)
  | map entries => return .ofMembers (← entriesToJson entries)

/-- The JSON values of elements. -/
def itemsToJson : List RawPayload → Except JsonError (List Json)
  | [] => .ok []
  | v :: rest => return (← v.toJson) :: (← itemsToJson rest)

/-- The members of a map. -/
def entriesToJson : List (RawKey × RawPayload) → Except JsonError (List (String × Json))
  | [] => .ok []
  | (k, v) :: rest => return (← k.name, ← v.toJson) :: (← entriesToJson rest)

end

end RawPayload

/-! ## §2 Envelopes -/

/-- Why an envelope could not be made or read. -/
inductive EnvelopeError where
  /-- The bytes are no envelope. -/
  | malformed (cause : JsonError)
  /-- The payload has no JSON form. -/
  | payload (cause : JsonError)
  deriving DecidableEq, Repr

/-- The wording of an envelope error. -/
def EnvelopeError.message : EnvelopeError → String
  | malformed cause => "malformed envelope: " ++ cause.message
  | payload cause => "payload serialization error: " ++ cause.message

/-- A unit of work as it is put on a topic. -/
structure Envelope where
  taskType : String
  payload : Json
  /-- How often the task has been retried, once it has. -/
  executeCount : Option Nat
  deriving DecidableEq, Inhabited

namespace Envelope

/-- The envelope of a task's first publish. -/
def create (taskType : String) (payload : RawPayload) : Except EnvelopeError Envelope :=
  match payload.toJson with
  | .ok payload => .ok ⟨taskType, payload, none⟩
  | .error e => .error (.payload e)

/-- The largest value of the retry counter. -/
def countLimit : Nat := maxWord32

/-- Retries this envelope has been through. -/
def attempts (e : Envelope) : Nat := e.executeCount.getD 0

/-- The envelope with its counter raised by one, unless it is at its limit. -/
def nextAttempt (e : Envelope) : Envelope :=
  { e with executeCount := some (min (e.attempts + 1) countLimit) }

/-- The text of an envelope. -/
def render (e : Envelope) : String :=
  "\x7b\"type\":" ++ Json.renderString e.taskType ++ ",\"payload\":" ++ e.payload.render ++
    (match e.executeCount with
      | some n => ",\"executeCount\":" ++ toString n
      | none => "") ++ "\x7d"

/-- The wire form of an envelope. -/
def encode (e : Envelope) : ByteArray := e.render.toUTF8

/-- An envelope as a record: only the type is required. -/
def record : RecordShape Envelope where
  title := "struct TaskEnvelope"
  fields := [
    (Field.of "type" Shape.text fun v e => { e with taskType := v }).needed,
    Field.of "payload" Shape.any fun v e => { e with payload := v },
    Field.of "executeCount" Shape.word32.optional fun v e => { e with executeCount := v }]
  blank := ⟨"", .null, none⟩

/-- Read an envelope from its wire form. -/
def decode (bytes : ByteArray) : Except EnvelopeError Envelope :=
  match record.parse bytes with
  | .ok e => .ok e
  | .error e => .error (.malformed e)

end Envelope

end WorkQueue
