import EventScript.Address
import EventScript.World

/-!
# Journals

What a run does, told in the order in which it does it: the blocks it enters and leaves, the actions it performs, the
values it writes, the events it hands to handlers, and what becomes of failures. Beside its journal a run leaves a
track: what its call stack has been, where something failed on it, and what error was made of that. Nothing in a run
depends on its journal or its track.
-/

namespace EventScript

/-- A place in a list of actions, where something else may stand by mistake. -/
inductive BlockItem where
  | action (a : Action)
  | stray (v : Value)
  deriving Inhabited

inductive Happening where
  /-- A block begins on a call stack of some depth. -/
  | entered (depth : Nat) (items : List BlockItem)
  /-- An item of a block has its turn. -/
  | performed (item : BlockItem)
  /-- All items of a block are done. -/
  | left
  /-- A value is about to be written through a concrete path; the world is that before the write. -/
  | assigned (before : World) (scope : ScopeId) (target : Path) (op : WriteOp) (v : Value)
  /-- An event that starts in a scope goes to the handler of another. -/
  | handled (event : Event) (start owner : ScopeId)
  /-- The handler of an event that started in a scope has failed with an error. -/
  | failed (event : Event) (start : ScopeId) (err : ErrorId)
  /-- An error goes to the host. -/
  | escalated (err : ErrorId)
  /-- A ceiling is exceeded. -/
  | exceeded (cause : Ceiling)
  deriving Inhabited

/-- The call stack that a failure brings along: that of the error that is thrown, or the one noted on a ceiling. -/
def Fault.ownStack (w : World) : Fault → Option CallStack
  | .thrown e _ => some (w.store.error e).stack
  | .ceiling _ stack => stack
  | _ => none

inductive Moment where
  /-- The call stack is now another one. -/
  | moved (stack : CallStack)
  /-- The host is called. -/
  | called (path : HandlerPath)
  /-- Something fails on a call stack. It may bring one along. -/
  | raised (f : Fault) (stack : CallStack) (own : Option CallStack)
  /-- A throw action fails with an error on a call stack; `again` if its value was an error before. -/
  | threw (err : ErrorId) (message : String) (again : Bool) (stack : CallStack)
  /-- The error that was made of a failure is handed to a handler, to the host or to whoever started the run. -/
  | delivered (err : ErrorId) (record : ErrorRecord)
  deriving Inhabited

end EventScript
