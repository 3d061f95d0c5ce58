import WorkQueue.Envelope
import WorkQueue.Handler.Behavior

/-!
# Handlers and dispatch

Handlers are asked in order; the first one that accepts an envelope gets its payload. A payload
that the handler cannot convert is rejected before the handler runs.

## Main definitions

* `Handler`, `Registry.route`
* `DispatchError`, `DispatchError.ofEnd`: what a dispatch came to
-/

namespace WorkQueue

/-- A payload as a handler understands it. -/
structure Call where
  /-- The converted payload, written back as a value. -/
  payload : Json
  /-- What the handler does with it. -/
  behavior : Behavior

/-- A handler for some kind of task. -/
structure Handler where
  name : String
  accepts : Envelope → Bool
  convert : Json → Except JsonError Call

/-- Why a task was not completed by its handler. -/
inductive DispatchError where
  | unroutable (taskType : String)
  | invalidPayload (handler : String) (cause : JsonError)
  | handlerFailed (handler : String) (cause : HandlerError)
  | panicked (taskType : String)
  deriving DecidableEq, Repr

namespace DispatchError

/-- The wording of a dispatch error. -/
def message : DispatchError → String
  | unroutable taskType => "no handler registered for task type '" ++ taskType ++ "'"
  | invalidPayload handler cause =>
    "handler '" ++ handler ++ "' rejected payload: " ++ cause.message
  | handlerFailed handler cause => "handler '" ++ handler ++ "' failed: " ++ cause.message
  | panicked taskType => "handler panicked while running '" ++ taskType ++ "'"

/-- Did the handler stop because of cancellation? -/
def isCanceled : DispatchError → Bool
  | handlerFailed _ .canceled => true
  | _ => false

end DispatchError

/-- What the end of a handler's run means for the task it ran. -/
def HandlerEnd.outcome (ending : HandlerEnd) (handler taskType : String) :
    Except DispatchError Unit :=
  match ending with
  | returned (.ok ()) => .ok ()
  | returned (.error cause) => .error (.handlerFailed handler cause)
  | panicked => .error (.panicked taskType)

/-- Handlers in the order they are asked. -/
abbrev Registry := List Handler

namespace Registry

/-- The first handler that accepts the envelope, and what it makes of the payload. -/
def route (r : Registry) (e : Envelope) : Except DispatchError (Handler × Call) :=
  match r.find? fun h => h.accepts e with
  | none => .error (.unroutable e.taskType)
  | some h =>
    match h.convert e.payload with
    | .ok call => .ok (h, call)
    | .error cause => .error (.invalidPayload h.name cause)

end Registry

end WorkQueue
