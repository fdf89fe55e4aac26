import EventScript.Run.Runner

/-!
# Outcomes

A whole run: of a handler block, or of an event. It never fails; its outcome is a value or an error, with what it
left behind.
-/

namespace EventScript

/-- What came of a run. -/
inductive Result where
  | success (v : Value)
  | failure (message : String) (error : Option ErrorId)

structure Outcome where
  result : Result
  effects : Array Effect := #[]
  journal : Array Happening := #[]
  track : Array Moment := #[]

namespace Outcome

/-- The error of an outcome and its call stack, innermost first; nothing for a success. -/
def errorText (w : World) (o : Outcome) : String :=
  match o.result with
  | .success _ => ""
  | .failure message error =>
    let head := if message.isEmpty then "Unknown error" else message
    let context := match error with
      | some e => (w.store.error e).stack.render "  "
      | none => ""
    if context.isEmpty then head else head ++ "\n" ++ context

end Outcome

namespace Run

/-- The message that the outcome of a run has for a failure. -/
def failureMessage (w : World) (f : Fault) : String :=
  f.heading ++ ": " ++ match f with
    | .thrown e _ => (w.store.error e).message
    | f => f.message

/-- The call stack that a failure has noted, or else the one where it came out. -/
def stackOf (f : Fault) (stack : CallStack) : CallStack :=
  match f with
  | .ceiling _ (some s) => s
  | _ => stack

/-- Reports a failure and makes it the outcome. -/
def failureOutcome (f : Fault) : Job Outcome := do
  let stack ← Job.callStack
  let err ← Job.exec (Exec.errorOf f (stackOf f stack) none)
  let message := failureMessage (← Job.world) f
  Job.exec (Exec.reportError err)
  Job.addEffect "stderr" message
  Job.deliver err
  return { result := .failure message (some err) }

/-- The outcome of a run, whether it fails or not. -/
def outcomeOf (x : Job Value) : World → Step Outcome := fun w =>
  let whole : Job Outcome := do
    match ← x.attempt with
    | .ok v => return { result := .success v }
    | .error f => failureOutcome f
  (whole {} w).bind fun r w =>
    match r with
    | (.ok o, p) => .done { o with effects := p.effects, journal := p.journal, track := p.track } w
    | (.error f, p) =>
      .done { result := .failure f.message none, effects := p.effects, journal := p.journal, track := p.track } w

/-- How many actions a fresh run may take. -/
def budget (w : World) : Nat := w.limits.actions.toNat

/-- Runs a handler block; no block is a run of nothing. -/
def runHandler (host : Host) (block : Option Block) (scope : ScopeId) (pure : Bool) :
    World → Step Outcome :=
  outcomeOf do
    match block with
    | none => return .null
    | some b =>
      let run := runItems host (Engine.full host.toEmbedding) (budget (← Job.world))
      runBlock run b scope pure "handler"

/-- Fires an event from outside. -/
def fire (host : Host) (event : Event) (scope : ScopeId) (pure : Bool) : World → Step Outcome :=
  outcomeOf do
    let run := runItems host (Engine.full host.toEmbedding) (budget (← Job.world))
    fireEvent run event scope pure

end Run

end EventScript
