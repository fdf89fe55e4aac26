import EventScript.Address
import EventScript.Run.Step

/-!
# Hosts

What a script asks of its host and what the host keeps of it: calls of handlers, events and errors that nobody
handled, names of what is out of date, and markup to be shown.
-/

namespace EventScript

/-- A call of a handler of the host. `data` is an object of its own. -/
structure Request where
  path : HandlerPath
  data : ObjectId
  pure : Bool
  library : Option String
  stack : CallStack
  scope : ScopeId

/-- What a host answers that has handlers by name, in the module `local` alone. One that records nothing answers
null. -/
def localReply (handler : String → Option (Request → World → Step (Except Fault Block))) (r : Request) :
    World → Step (Except Fault Block) := fun w =>
  match w.host.kind with
  | .silent => .done (.ok (.value .null)) w
  | .recording =>
    if r.path.module != "local" then .done (.error (.unresolved (.noModule r.path.module r.path.full))) w
    else match handler (Text.stripChar '/' r.path.path) with
      | none => .done (.error (.unresolved (.noHandler r.path.full))) w
      | some answer => answer r w

/-- A host: what it adds to the language, and how it replies to calls, with a value or with a block to run. One that
says nothing else asks its handlers by name. -/
structure Host extends Embedding where
  handler : String → Option (Request → World → Step (Except Fault Block)) := fun _ => none
  reply : Request → World → Step (Except Fault Block) := localReply handler

namespace Exec

/-- Keeps an error that is reported, and logs it. -/
def reportError (e : ErrorId) : Exec Unit := do
  modify fun w =>
    match w.host.kind with
    | .recording => { w with host := { w.host with reportedErrors := w.host.reportedErrors.push e } }
    | .silent => w
  log .error (Text.dropTrailingNewlines ((← store).error e).report)

/-- Keeps an error that nobody handled, and reports it. -/
def unhandledError (e : ErrorId) : Exec Unit := do
  modify fun w =>
    match w.host.kind with
    | .recording => { w with host := { w.host with unhandledErrors := w.host.unhandledErrors.push e } }
    | .silent => w
  reportError e

/-- Keeps an event that nobody handled, and logs it. -/
def unhandledEvent (e : Event) : Exec Unit := do
  modify fun w =>
    match w.host.kind with
    | .recording => { w with host := { w.host with unhandledEvents := w.host.unhandledEvents.push e } }
    | .silent => w
  log .warning ("unhandled event " ++ e.name)

/-- Keeps what is out of date: all, or what a pattern names. -/
def invalidate (pattern : Option String) : Exec Unit :=
  modify fun w =>
    match w.host.kind with
    | .recording => { w with host := { w.host with invalidations := w.host.invalidations.push pattern } }
    | .silent => w

/-- Keeps markup that is to be shown. -/
def installMarkup (v : Value) : Exec Unit :=
  modify fun w =>
    match w.host.kind with
    | .recording => { w with host := { w.host with markup := w.host.markup.push v } }
    | .silent => w

/-- The scope of a markup node, if the host knows it. -/
def nodeScope (id : String) : Exec (Option ScopeId) := do
  let w ← get
  match w.host.kind with
  | .recording => return (w.host.nodeScopes.find? (·.1 == id)).map (·.2)
  | .silent => return none

/-- The error record of a failure. An error that was thrown keeps its record, which learns the event if it has
none. -/
def errorOf (f : Fault) (stack : CallStack) (event : Option String) : Exec ErrorId := do
  match f with
  | .thrown e _ =>
    modify fun w =>
      let err := w.store.error e
      if err.event.isSome then w
      else { w with store := w.store.setError e { err with event } }
    return e
  | f => newError { message := f.report, stack, cause := some f.message, event }

end Exec

/-- Calls a handler of the host and waits for its reply. -/
def Host.call (host : Host) (r : Request) : Job Block := Job.await (host.reply r)

end EventScript
