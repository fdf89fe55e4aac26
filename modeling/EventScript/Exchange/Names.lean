import EventScript.Address
import EventScript.Checked
import EventScript.Handles

/-!
# Names in the exchange form

Values and scripts are exchanged as data. Such data can give names to values, cells and scopes and use the names
again; a handle or a function value may name a scope that is made later.
-/

namespace EventScript.Exchange

/-- What has a name so far. -/
structure Names where
  values : List (String × Value) := []
  cells : List (String × CellId) := []
  scopes : List (String × ScopeId) := []
  /-- Handles and function values that wait for the scope they name. -/
  waiting : List (Value × String) := []
  /-- Whether all scopes that were waited for are made. -/
  settled : Bool := false
  deriving Inhabited

/-- A world and the names in it. -/
structure Session where
  world : World := {}
  names : Names := {}
  deriving Inhabited

/-- Reading data, which changes the world and learns names. -/
abbrev Reading := EStateM Fault Session

namespace Reading

/-- A computation over the world alone. -/
def exec {α : Type} (x : Exec α) : Reading α := fun s =>
  match x s.world with
  | .ok a w => .ok a { s with world := w }
  | .error e w => .error e { s with world := w }

def world : Reading World := return (← get).world

def refuse {α : Type} (what : String) : Reading α := throw (.notExchange what)

def check {α : Type} (x : Except Malformed α) : Reading α := exec (Exec.ofExcept .malformed x)

/-- What is under a name in a list. -/
def named? {α : Type} (name : String) (xs : List (String × α)) : Option α :=
  (xs.find? (·.1 == name)).map (·.2)

def nameValue (name : String) (v : Value) : Reading Unit :=
  modify fun s => { s with names := { s.names with values := (name, v) :: s.names.values } }

def nameCell (name : String) (c : CellId) : Reading Unit :=
  modify fun s => { s with names := { s.names with cells := (name, c) :: s.names.cells } }

def nameScope (name : String) (scope : ScopeId) : Reading Unit :=
  modify fun s => { s with names := { s.names with scopes := (name, scope) :: s.names.scopes } }

def scopeNamed (name : String) : Reading ScopeId := do
  match named? name (← get).names.scopes with
  | some s => return s
  | none => throw (.missingKey (Text.quoted name))

/-- The name that was given to a scope first. -/
def scopeName? (names : Names) (scope : ScopeId) : Option String :=
  (names.scopes.reverse.find? (·.2 == scope)).map (·.1)

/-- Gives a handle or a function value its scope. -/
def bindTo (v : Value) (scope : ScopeId) : Exec Unit := modify fun w =>
  match v with
  | .handle h =>
    match w.store.handle h with
    | .bound p _ => { w with store := w.store.setHandle h (.bound p (some scope)) }
    | _ => w
  | .lambda l =>
    match w.store.lambda l with
    | .closure e _ => { w with store := w.store.setLambda l (.closure e (some scope)) }
    | _ => w
  | _ => w

/-- Gives a handle or a function value the scope it names, now or when the scopes are made. -/
def bindNamed (v : Value) (name : String) : Reading Unit := do
  if (← get).names.settled then
    let scope ← scopeNamed name
    exec (bindTo v scope)
  else
    modify fun s => { s with names := { s.names with waiting := s.names.waiting ++ [(v, name)] } }

/-- Gives all that wait their scopes. -/
def settle : Reading Unit := do
  let waiting := (← get).names.waiting
  modify fun s => { s with names := { s.names with settled := true, waiting := [] } }
  waiting.forM fun w => bindNamed w.1 w.2

end Reading

end EventScript.Exchange
