import EventScript.Limits

/-!
# The world of a script

The store, the scopes, the two roots that all scopes share, the functions, what the host has been told, and what
has been logged. A computation changes the world step by step and keeps what it has done when it fails.
-/

namespace EventScript

/-- Whether events that find no handler here go on to the ancestors. -/
inductive Boundary where
  | soft
  | hard
  deriving DecidableEq, Repr

def Boundary.name : Boundary → String
  | .soft => "soft"
  | .hard => "hard"

/-- A link in the chain of scopes. -/
structure Scope where
  parent : Option ScopeId := none
  /-- The object with the context entries made here. -/
  context : ObjectId
  /-- The handlers by event; an event may be listed without a handler. -/
  handlers : List (String × Option Block) := []
  component : Option CellId := none
  args : Option CellId := none
  html : Option String := none
  library : Option String := none
  boundary : Option Boundary := none
  /-- The local data; absent if there are none. -/
  localData : Value := .absent
  /-- Whether local data of the ancestors are out of sight. -/
  blocksLocal : Bool := false
  deriving Inhabited

/-- The functions that every script can call. -/
inductive Builtin where
  | len
  | indexOf
  | splice
  | slice
  | merge
  | keys
  | values
  | equal
  | copy
  | int
  | float
  | str
  | bool
  | jsonParse
  | json
  | split
  | substr
  | sprintf
  | startsWith
  | endsWith
  | match_
  | now
  | ts
  | uuid
  | blobAsText
  | blobAsBase64
  | blobMimeType
  | blobLen
  deriving DecidableEq, Repr

namespace Builtin

def all : List Builtin :=
  [.len, .indexOf, .splice, .slice, .merge, .keys, .values, .equal, .copy, .int, .float, .str, .bool,
    .jsonParse, .json, .split, .substr, .sprintf, .startsWith, .endsWith, .match_, .now, .ts, .uuid,
    .blobAsText, .blobAsBase64, .blobMimeType, .blobLen]

def name : Builtin → String
  | .len => "len"
  | .indexOf => "indexof"
  | .splice => "splice"
  | .slice => "slice"
  | .merge => "merge"
  | .keys => "keys"
  | .values => "values"
  | .equal => "deepequal"
  | .copy => "deepcopy"
  | .int => "int"
  | .float => "float"
  | .str => "str"
  | .bool => "bool"
  | .jsonParse => "jsonparse"
  | .json => "json"
  | .split => "split"
  | .substr => "substr"
  | .sprintf => "sprintf"
  | .startsWith => "startswith"
  | .endsWith => "endswith"
  | .match_ => "match"
  | .now => "now"
  | .ts => "ts"
  | .uuid => "uuid"
  | .blobAsText => "blobastext"
  | .blobAsBase64 => "blobasbase64"
  | .blobMimeType => "blobmimetype"
  | .blobLen => "bloblen"

end Builtin

/-- What a function name leads to. -/
inductive Callee where
  | builtin (b : Builtin)
  /-- A function of the host, by the name the host knows it by. -/
  | hosted (name : String)
  deriving DecidableEq, Repr

/-- A function: what it calls, and whether it sees the values of the caller themselves. Any other sees copies. -/
structure Function where
  callee : Callee
  shares : Bool := true
  deriving DecidableEq, Repr

inductive LogLevel where
  | info
  | warning
  | error
  deriving DecidableEq, Repr

def LogLevel.name : LogLevel → String
  | .info => "INFO"
  | .warning => "WARNING"
  | .error => "ERROR"

/-- An event on its way to a handler. `about` holds the entries of its data that describe the event. -/
structure Event where
  name : String
  data : Entries Value := []
  bubble : Bool := false
  about : Entries Value := []
  target : Option String := none
  deriving Inhabited

/-- A change of a cell as a subscriber is told it, with the store right after the change. -/
structure Notice where
  label : String
  new : Value
  old : Value
  store : Store

/-- How the host treats what it is told. -/
inductive HostKind where
  /-- It has handlers of its own and records everything. -/
  | recording
  /-- It answers every call with null and records nothing. -/
  | silent
  deriving DecidableEq, Repr

/-- What the host has been told. -/
structure HostRecord where
  kind : HostKind := .recording
  /-- The scopes of markup nodes, by the id of the node. -/
  nodeScopes : List (String × ScopeId) := []
  unhandledEvents : Array Event := #[]
  unhandledErrors : Array ErrorId := #[]
  reportedErrors : Array ErrorId := #[]
  invalidations : Array (Option String) := #[]
  markup : Array Value := #[]

structure World where
  store : Store := {}
  scopes : Array Scope := #[]
  globalCell : CellId := 0
  stateCell : CellId := 0
  limits : Limits := {}
  functions : List (String × Function) := []
  host : HostRecord := {}
  logs : Array (LogLevel × String) := #[]
  notices : Array Notice := #[]
  debug : Bool := false
  debugLines : Array String := #[]
  /-- The marks of computed NaNs given out so far. -/
  nans : Nat := 0
  /-- The unique ids given out so far. -/
  serials : Nat := 0
  /-- Whether runs that wait for the gate may go on. -/
  gateOpen : Bool := false
  /-- The time in milliseconds. -/
  clock : Nat := 0

/-- A computation over the world that may fail. -/
abbrev Exec := EStateM Fault World

namespace World

def scope (w : World) (s : ScopeId) : Scope := w.scopes.getD s default

/-- A scope and its ancestors, nearest first, at most `fuel` of them. -/
def chainFrom (w : World) : (fuel : Nat) → ScopeId → List ScopeId
  | 0, _ => []
  | fuel + 1, s =>
    s :: match (w.scope s).parent with
      | some p => chainFrom w fuel p
      | none => []

/-- A scope and its ancestors, nearest first. An ancestor is always older. -/
def chain (w : World) (s : ScopeId) : List ScopeId := w.chainFrom (s + 1) s

/-- The entries of a scope's own context. -/
def contextOf (w : World) (s : ScopeId) : Entries Value := w.store.object (w.scope s).context

/-- The context entries that are seen from a scope: those of the ancestors first, the nearest value wins. -/
def visible (w : World) (s : ScopeId) : Entries Value :=
  (w.chain s).reverse.foldl (fun es t => Entries.update es (w.contextOf t)) []

/-- The context value of a key that is seen from a scope. -/
def lookup? (w : World) (s : ScopeId) (k : Key) : Option Value :=
  (w.chain s).findSome? fun t => Entries.get? k (w.contextOf t)

/-- The entries of an object or a context; any other value has none. -/
def entries (w : World) : Value → Entries Value
  | .object o => w.store.object o
  | .context c => w.visible (w.store.view c)
  | _ => []

/-- The entry of an object or a context under a key. -/
def valueAt? (w : World) (v : Value) (k : Key) : Option Value :=
  match v with
  | .object o => Entries.get? k (w.store.object o)
  | .context c => w.lookup? (w.store.view c) k
  | _ => none

end World

namespace Exec

def store : Exec Store := do return (← get).store

def setStore (s : Store) : Exec Unit := modify fun w => { w with store := s }

/-- Makes an object of the store. -/
def allocate {α : Type} (make : Store → α × Store) : Exec α :=
  modifyGet fun w => let r := make w.store; (r.1, { w with store := r.2 })

def newArray (xs : Array Value) : Exec Value := return .array (← allocate (·.newArray xs))

def newObject (es : Entries Value) : Exec Value := return .object (← allocate (·.newObject es))

def newBlob (b : Blob) : Exec Value := return .blob (← allocate (·.newBlob b))

def newNodes (ns : List Node) : Exec Value := return .nodes (← allocate (·.newNodeList ns))

def newHandle (h : Handle) : Exec Value := return .handle (← allocate (·.newHandle h))

def newLambda (l : Lambda) : Exec Value := return .lambda (← allocate (·.newLambda l))

def newError (e : ErrorRecord) : Exec ErrorId := allocate (·.newError e)

/-- A mark for a NaN that a computation yields. -/
def freshNan : Exec Nat := modifyGet fun w => (w.nans + 8, { w with nans := w.nans + 1 })

def log (level : LogLevel) (text : String) : Exec Unit :=
  modify fun w => { w with logs := w.logs.push (level, text) }

/-- Writes a debug line if debug lines are asked for. -/
def debugLine (parts : List String) : Exec Unit :=
  modify fun w =>
    if w.debug then
      { w with debugLines := w.debugLines.push (String.intercalate " " ("[DBG]" :: parts)) }
    else w

def fail {α : Type} (cause : Unresolved) : Exec α := throw (.refusal cause)

def reject {α : Type} (cause : Malformed) : Exec α := throw (.malformed cause)

def ofExcept {ε α : Type} (f : ε → Fault) : Except ε α → Exec α
  | .ok a => pure a
  | .error e => throw (f e)

/-- Fails if a text needs a number that is too long to be written. -/
def checkWritten (long : Bool) : Exec Unit := if long then throw (.digits .writing) else pure ()

/-- The number a value counts as, unless its text is too long to be read. -/
def numberOf (v : Value) : Exec Number := do
  ofExcept .digits v.checkNumber
  return v.toNumber

/-- Replaces the value of a cell and tells its subscribers. -/
def setCell (c : CellId) (v : Value) : Exec Unit := modify fun w =>
  let cell := w.store.cell c
  let store := w.store.setCell c { cell with value := v }
  let told := cell.subscribers.map fun s => { label := s.label, new := v, old := cell.value, store }
  { w with store, notices := w.notices ++ told.toArray }

/-- Makes a scope with a context of its own. -/
def newScope (s : Scope) (context : Entries Value) : Exec ScopeId := do
  let o ← allocate (·.newObject context)
  modifyGet fun w => (w.scopes.size, { w with scopes := w.scopes.push { s with context := o } })

end Exec

end EventScript
