import EventScript.Handles

/-!
# Starting a world

The shared roots, the built-in functions, and outermost scopes.
-/

namespace EventScript

/-- The boundary a name stands for. -/
def Boundary.read : String → Except Fault Boundary
  | "soft" => .ok .soft
  | "hard" => .ok .hard
  | s => .error (.boundary (Text.quoted s))

/-- The built-in functions under their names. -/
def builtinFunctions : List (String × Function) :=
  Builtin.all.map fun b => (b.name, { callee := .builtin b })

namespace Exec

/-- A cell with a value; null stands for an empty object. -/
def newRootCell (v : Value) : Exec CellId := do
  let v ← if v == .null then newObject [] else pure v
  allocate (·.newCell { value := v })

/-- Sets up the shared roots and, if they are wanted, the built-in functions. -/
def start (global state : Value) (builtins : Bool) : Exec Unit := do
  let globalCell ← newRootCell global
  let stateCell ← newRootCell state
  modify fun w =>
    { w with globalCell, stateCell, functions := if builtins then builtinFunctions else [] }

/-- A cell for a root of a scope; null declares none. -/
def newScopeCell (v : Value) : Exec (Option CellId) := do
  if v == .null then return none else return some (← allocate (·.newCell { value := v }))

/-- A scope without ancestors and without entries. -/
def rootScope : Exec ScopeId :=
  newScope { context := 0, html := some "<root>", library := some "main" } []

end Exec

/-- An embedding that adds nothing. -/
def Embedding.plain : Embedding where
  native name _ _ := throw (.missingKey (Text.quoted name))
  function name _ := throw (.missingKey (Text.quoted name))

end EventScript
