import EventScript.Path.Reader
import EventScript.Structural.Follow

/-!
# Following paths

A path is made concrete first: computed parts become keys and indices, and a text that spells a path takes the
place of the part that computed it. Then it is followed from its root. Null and missing entries lead to null; only
a step that cannot be made at all is a failure.
-/

namespace EventScript

/-- Evaluates an expression in a scope, handles followed. -/
abbrev Evaluate := Expr → Option ScopeId → Exec Value

namespace Path

/-- The part that a computed value stands for: an index for a whole number, else a key. -/
def partOfValue (w : World) : Value → Part
  | .num n =>
    if n.isWhole then
      match n.truncate with
      | .ok i => .index i
      | .error _ => .key n.text
    else .key n.text
  | v => .key (w.display v)

/-- Fails with a cause that names a path, if the path can be written. -/
def failWith {α : Type} (p : Path) (cause : String → Unresolved) : Exec α := do
  Exec.fail (cause (← Exec.ofExcept .digits p.spell))

/-- The path that a text spells where a path is computed. -/
def readDeref (text : String) : Exec Path := do
  Exec.ofExcept .digits (Path.checkText text)
  match Path.read text with
  | .ok p => pure p
  | .error e => Exec.fail (.deref text e)

/-- The path that leads nowhere. -/
def nowhere : Path := .ofRoot .null

/-- A part with what it computes evaluated; none if a text was asked for and another value came. -/
def concretePart (eval : Evaluate) (scope : Option ScopeId) : Part → Exec (Option Part)
  | .dyn e => do
    let v ← eval e scope
    return some (partOfValue (← get) v)
  | .deref e => do
    match ← eval e scope with
    | .str text => do
      let _ ← readDeref text
      Exec.fail (.derefPlace text)
    | _ => return none
  | part => return some part

/-- The parts after the first with all computed ones evaluated, up to the first that there is none for. -/
def concreteParts (eval : Evaluate) (scope : Option ScopeId) : List Part → Exec (Option (List Part))
  | [] => return some []
  | part :: rest => do
    match ← concretePart eval scope part with
    | none => return none
    | some part =>
      match ← concreteParts eval scope rest with
      | some parts => return some (part :: parts)
      | none => return none

/-- The path with all computed parts evaluated. -/
def concrete (eval : Evaluate) (limits : Limits) (scope : Option ScopeId) (p : Path) : Exec Path := do
  if p.isStatic then return p
  if limits.derefDepth < 0 then Exec.fail (.derefDepth limits.derefDepth)
  match p with
  | .mk (.root r) rest =>
    match ← concreteParts eval scope rest with
    | some parts => return .mk (.root r) parts
    | none => return nowhere
  | .mk (.deref e) rest =>
    match ← eval e scope with
    | .str text => do
      match ← readDeref text with
      | .mk head front =>
        match ← concreteParts eval scope rest with
        | some parts => return .mk head (front ++ parts)
        | none => return nowhere
    | _ => return nowhere

/-- The value at a root. -/
def rootOf (r : Root) (scope : Option ScopeId) : Exec Value :=
  match r.key with
  | .expr => pure r.value
  | .null => pure .null
  | key =>
    match scope with
    | none => Exec.fail (.noScope key.name)
    | some s => Exec.rootValue s key r.caret

/-- The element at an index. -/
def stepIndex (read : HandleId → Exec Value) (limits : Limits) (v : Value) (i : Int) : Exec Value := do
  let v ← follow read limits.handleDepth v
  match v with
  | .null | .absent => return .null
  | .array a =>
    if i < 0 then Exec.fail (.badIndex i)
    return ((← Exec.store).array a).getD i.toNat .null
  | v =>
    if v.kind == .special then return .null
    Exec.fail (.indexOf i v.kind)

/-- An object with the nodes of each group under its key. -/
def nodeGroups (groups : List (String × List Node)) : Exec Value := do
  let entries ← groups.mapM fun g => do
    return (Key.str g.1, ← Exec.newNodes g.2)
  Exec.newObject entries

/-- A field of a special value; most have none. -/
def fieldOf (v : Value) (key : String) : Exec Value := do
  match v with
  | .nodes n =>
    let ns := (← Exec.store).nodeList n
    match key with
    | "all" => return v
    | "first" => Exec.newNodes (ns.take 1)
    | "noslot" => Exec.newNodes (ns.filter (·.slot.isNone))
    | "size" => return .int ns.length
    | "bytag" => nodeGroups (groupNodes (some ·.tag) ns)
    | "byslot" => nodeGroups (groupNodes (·.slot) ns)
    | _ => return .null
  | .error e =>
    let err := (← Exec.store).error e
    match key with
    | "message" => return .str err.message
    | "context" => return .str (err.stack.render "")
    | "event" => return (err.event.map Value.str).getD .null
    | "cause" => return (err.cause.map Value.str).getD .null
    | _ => return .null
  | _ => return .null

/-- The entry under a key; one that is missing is null, or absent if `markAbsent` says so. -/
def stepKey (read : HandleId → Exec Value) (limits : Limits) (v : Value) (key : String)
    (markAbsent : Bool) : Exec Value := do
  let v ← follow read limits.handleDepth v
  let missing : Value := if markAbsent then .absent else .null
  match v with
  | .null | .absent => return missing
  | .object _ | .context _ => return ((← get).valueAt? v (.str key)).getD missing
  | v =>
    if v.kind == .special then fieldOf v key
    else Exec.fail (.keyOf key v.kind)

/-- Follows the parts after the root. `text` is the whole path, for the refusal of a part that no path should have, in
which indices are taken to be short; `markAbsent` holds for the first part alone. -/
def walk (read : HandleId → Exec Value) (limits : Limits) (text : String) :
    (markAbsent : Bool) → List Part → Value → Exec Value
  | _, [], v => pure v
  | markAbsent, part :: rest, v => do
    let next ← match part with
      | .index i => stepIndex read limits v i
      | .key k => stepKey read limits v k markAbsent
      | .root _ => Exec.reject (.innerRoot text)
      | .dyn _ | .deref _ => Exec.reject (.unevaluated text)
    walk read limits text false rest next

/-- Follows a concrete path. A missing argument is absent and not null. -/
def followStatic (read : HandleId → Exec Value) (limits : Limits) (p : Path) (scope : Option ScopeId) :
    Exec Value := do
  match p.root? with
  | none => Exec.reject (.rootless p.text)
  | some r =>
    let v ← rootOf r scope
    walk read limits p.text (r.key == .args) p.rest v

/-- Follows a concrete path from a container, which its global root stands for. -/
def followIn (read : HandleId → Exec Value) (limits : Limits) (p : Path) (container : Value) :
    Exec Value :=
  match p.rootKey? with
  | some .global | some .data => walk read limits p.text false p.rest container
  | _ => failWith p .containerRoot

/-- Follows a path. -/
def resolve (eval : Evaluate) (read : HandleId → Exec Value) (limits : Limits) (p : Path)
    (scope : Option ScopeId) : Exec Value := do
  let p ← concrete eval limits scope p
  followStatic read limits p scope

end Path

end EventScript
