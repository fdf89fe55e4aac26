import EventScript.Eval

/-!
# Reading and writing from outside

The operations that a host calls on paths, which may be given as texts. Each comes in two forms: one fails, the
other logs a soft failure and goes on.
-/

namespace EventScript

/-- A path as it is given: as a text, read already, or something else by mistake. -/
inductive PathSource where
  | text (s : String)
  | path (p : Path)
  | other (typeName : String)
  deriving Inhabited

namespace PathSource

/-- The path as a log names it. -/
def label : PathSource → String
  | .text s => s
  | .path p => p.text
  | .other _ => ""

/-- A computation about a path. A soft failure, which is logged with the path, is none if the path is too long to be
written. -/
def logged {α : Type} (x : Exec α) : PathSource → Exec α
  | .path p => tryCatch x fun e => do
    Exec.checkWritten (e.isSoft && p.isLong)
    throw e
  | _ => x

/-- The path itself. -/
def get : PathSource → Exec Path
  | .text s => Exec.ofExcept id (Path.parse s)
  | .path p => pure p
  | .other typeName => throw (.attribute typeName "is_static")

/-- The target of a write and the operation, which the text may name if it is not given. -/
def target (op : Option String) : PathSource → Exec (WriteOp × Path)
  | .text s => do
    let (named, p) ← Exec.ofExcept id (Path.parseTarget s)
    match op with
    | some op => return (← Exec.ofExcept .malformed (WriteOp.read op), p)
    | none => return (named, p)
  | .path p => do return (← Exec.ofExcept .malformed (WriteOp.read (op.getD "")), p)
  | .other typeName => do
    let _ ← Exec.ofExcept .malformed (WriteOp.read (op.getD ""))
    throw (.attribute typeName "is_static")

end PathSource

namespace Engine

/-- Follows a given path. -/
def get (g : Engine) (p : PathSource) (scope : Option ScopeId) : Exec Value := do
  g.resolvePath (← p.get) scope

/-- Follows a given path; what cannot be resolved is null. -/
def tryGet (g : Engine) (p : PathSource) (scope : Option ScopeId) (ctx : Option String) : Exec Value :=
  orElse ("resolve " ++ p.label) ctx .null (p.logged (g.get p scope))

/-- Writes through a given path. -/
def put (g : Engine) (p : PathSource) (scope : ScopeId) (v : Value) (op : Option String)
    (allowContext : Bool) : Exec Unit := do
  let (op, path) ← p.target op
  g.writePath path scope v op allowContext

/-- Writes through a given path, and tells whether it could be done. -/
def tryPut (g : Engine) (p : PathSource) (scope : ScopeId) (v : Value) (op : Option String)
    (allowContext : Bool) (ctx : Option String) : Exec Bool :=
  orElse ("write " ++ p.label) ctx false (p.logged do g.put p scope v op allowContext; return true)

end Engine

end EventScript
