import EventScript.Display

/-!
# Scopes

The roots that a scope gives access to, and the search along the chain of its ancestors: for a cell that one of
them declares, for local data, for the handler of an event.
-/

namespace EventScript

namespace World

/-- The ancestor that a number of carets leads to, or the outermost one. -/
def caretScopeFrom (w : World) : (caret : Nat) → ScopeId → ScopeId
  | 0, s => s
  | caret + 1, s =>
    match (w.scope s).parent with
    | some p => caretScopeFrom w caret p
    | none => s

/-- The component cell that is nearest. -/
def componentCell? (w : World) (s : ScopeId) : Option CellId :=
  (w.chain s).findSome? fun t => (w.scope t).component

/-- The argument cell that is nearest. -/
def argsCell? (w : World) (s : ScopeId) : Option CellId :=
  (w.chain s).findSome? fun t => (w.scope t).args

/-- The local data along a chain after skipping some; null where they are out of sight. -/
def localIn (w : World) : (skip : Nat) → List ScopeId → Value
  | _, [] => .null
  | skip, s :: rest =>
    let scope := w.scope s
    if scope.localData == .absent then
      if scope.blocksLocal then .null else localIn w skip rest
    else
      match skip with
      | 0 => scope.localData
      | skip + 1 => if scope.blocksLocal then .null else localIn w skip rest

/-- The value of a cell that may be missing. -/
def cellValue (w : World) : Option CellId → Value
  | some c => (w.store.cell c).value
  | none => .null

/-- The library that a scope belongs to. -/
def library? (w : World) (s : ScopeId) : Option String :=
  (w.chain s).findSome? fun t => (w.scope t).library

/-- The handler that a scope has for an event. -/
def handler? (w : World) (s : ScopeId) (event : String) : Option Block :=
  ((w.scope s).handlers.find? (·.1 == event)).bind (·.2)

/-- The nearest handler for an event along a chain, and the scope that has it. A handler that is running is passed
over; a hard boundary ends the search unless the event bubbles. -/
def handlerIn (w : World) (event : String) (running : ScopeId → Bool) (bubble : Bool) :
    List ScopeId → Option (Block × ScopeId)
  | [] => none
  | s :: rest =>
    let past :=
      if (w.scope s).boundary == some .hard && !bubble then none else handlerIn w event running bubble rest
    match w.handler? s event with
    | some block => if running s then past else some (block, s)
    | none => past

/-- The nearest handler for an event, and the scope that has it. -/
def findHandler (w : World) (s : ScopeId) (event : String) (stack : CallStack) (bubble : Bool) :
    Option (Block × ScopeId) :=
  w.handlerIn event (fun t => stack.isRunning (some t) event) bubble (w.chain s)

/-- The function a name leads to; names are the same in upper and lower case. -/
def function? (w : World) (name : String) : Option Function :=
  (w.functions.find? (·.1 == Text.lower name)).map (·.2)

/-- Puts a function under a name, in place of an earlier one. -/
def register (w : World) (name : String) (f : Function) : World :=
  let name := Text.lower name
  { w with functions := w.functions.filter (·.1 != name) ++ [(name, f)] }

end World

namespace Exec

/-- The value of a root as a scope sees it. -/
def rootValue (s : ScopeId) (key : RootKey) (caret : Nat) : Exec Value := do
  let w ← get
  match key with
  | .global | .data => return w.cellValue (some w.globalCell)
  | .state => return w.cellValue (some w.stateCell)
  | .local => return w.localIn caret (w.chain s)
  | .null => return .null
  | .context => return .context (← allocate (·.newView (w.caretScopeFrom caret s)))
  | .currentContext => return .object (w.scope (w.caretScopeFrom caret s)).context
  | .component | .c => return w.cellValue (w.componentCell? s)
  | .args => return w.cellValue (w.argsCell? s)
  | .expr => fail (.rootName key.name)

/-- Replaces the value of a root. -/
def setRootValue (s : ScopeId) (key : RootKey) (v : Value) : Exec Unit := do
  let w ← get
  match key with
  | .global | .data => setCell w.globalCell v
  | .state => setCell w.stateCell v
  | .component | .c =>
    match w.componentCell? s with
    | some c => setCell c v
    | none => fail (.undeclaredRoot key.name)
  | .args =>
    match w.argsCell? s with
    | some c => setCell c v
    | none => fail (.undeclaredRoot key.name)
  | key => fail (.fixedRoot key.name)

/-- The value of a root by its name. -/
def rootNamed (s : ScopeId) (name : String) (caret : Nat) : Exec Value :=
  match RootKey.ofName? name with
  | some key => rootValue s key caret
  | none => fail (.rootName name)

/-- Replaces the value of a root by its name. -/
def setRootNamed (s : ScopeId) (name : String) (v : Value) : Exec Unit :=
  match RootKey.ofName? name with
  | some key => setRootValue s key v
  | none => fail (.fixedRoot name)

/-- The cell of a root that all scopes share. -/
def sharedCell (name : String) : Exec CellId := do
  match name with
  | "global" => return (← get).globalCell
  | "state" => return (← get).stateCell
  | _ => fail (.rootName name)

/-- Puts a value under a key: in an object itself, in a context where it looks out from. -/
def setEntry (v : Value) (k : Key) (item : Value) : Exec Unit := modify fun w =>
  match v with
  | .object o => { w with store := w.store.setObject o (Entries.insert k item (w.store.object o)) }
  | .context c =>
    let o := (w.scope (w.store.view c)).context
    { w with store := w.store.setObject o (Entries.insert k item (w.store.object o)) }
  | _ => w

/-- Takes the value under a key away from the scope that a context looks out from. -/
def eraseEntry (s : ScopeId) (k : Key) (literal : String) : Exec Unit := do
  let w ← get
  let o := (w.scope s).context
  if Entries.has k (w.store.object o) then
    set { w with store := w.store.setObject o (Entries.erase k (w.store.object o)) }
  else throw (.missingKey literal)

/-- A scope below another, with the given context. -/
def childScope (parent : ScopeId) (context : Entries Value) (html : String) (blocksLocal : Bool) :
    Exec ScopeId :=
  newScope { parent := some parent, context := 0, html := some html, blocksLocal } context

end Exec

/-! ### What a scope tells about itself -/

/-- The order of two keys, when they have one. -/
def Key.order? : Key → Key → Option Ordering
  | .str s, .str t => some (compare s t)
  | a, b =>
    match a.number?, b.number? with
    | some m, some n => some ((m.order? n).getD .gt)
    | _, _ => none

/-- The class of a key. -/
def Key.typeName : Key → String
  | .null => "NoneType"
  | .bool _ => "bool"
  | .num (.int _) => "int"
  | .num _ => "float"
  | .str _ => "str"
  | .foreign .. => "date"

/-- The first neighbours that have no order. -/
def unorderedPair? : List Key → Option (Key × Key)
  | a :: b :: rest => if (b.order? a).isNone then some (b, a) else unorderedPair? (b :: rest)
  | _ => none

/-- Keys in their order. -/
def sortKeys (ks : List Key) : Except Fault (List Key) :=
  match unorderedPair? ks with
  | some (a, b) => .error (.unordered a.typeName b.typeName)
  | none => .ok (ks.mergeSort fun a b => a.order? b != some .gt)

namespace World

/-- A scope in one line of a listing. -/
def scopeLine (w : World) (depth : Nat) (s : ScopeId) : Except Fault String := do
  let scope := w.scope s
  let html := match scope.html with
    | some h => if h.isEmpty then "<env>" else h
    | none => "<env>"
  let context ← match Entries.keys (w.contextOf s) with
    | [] => pure ""
    | ks => do pure (" specials=" ++ Key.listText (← sortKeys ks))
  let handlers ← match scope.handlers with
    | [] => pure ""
    | hs => do pure (" handlers=" ++ Key.listText (← sortKeys (hs.map fun h => .str h.1)))
  let boundary := match scope.boundary with
    | some b => " boundary=" ++ b.name
    | none => ""
  return toString depth ++ ": " ++ html ++ context ++ handlers
    ++ (if scope.localData == .absent then "" else " local=yes") ++ boundary

/-- Scopes in lines of a listing. -/
def scopeLinesFrom (w : World) : (depth : Nat) → List ScopeId → Except Fault (List String)
  | _, [] => .ok []
  | depth, s :: rest => do
    let line ← w.scopeLine depth s
    return line :: (← scopeLinesFrom w (depth + 1) rest)

/-- A scope and its ancestors in lines of a listing. -/
def scopeLines (w : World) (s : ScopeId) : Except Fault (List String) := w.scopeLinesFrom 0 (w.chain s)

/-- A scope in a few words. -/
def scopeText (w : World) (s : ScopeId) : String :=
  let html := w.fullHtml s
  "<DataEnvironment " ++ (if html.isEmpty then "<root>" else html) ++ ">"

end World

end EventScript
