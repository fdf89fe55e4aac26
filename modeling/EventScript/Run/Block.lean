import EventScript.Run.Host

/-!
# Blocks

What is run where a block is expected: a list of actions, or an object that holds one.
-/

namespace EventScript

namespace BlockItem

/-- The entry under which an object holds a block. -/
def blockKey : Key := .str "hibikihandler"

/-- The entry under which an object holds a list of actions. -/
def actionsKey : Key := .str "hibikiactions"

/-- The list of actions that a value holds; each object on the way takes one from `fuel`. -/
def ofValue : (fuel : Nat) → Value → Exec (List BlockItem)
  | 0, _ => throw (.tooDeep .calling)
  | fuel + 1, v => do
    let w ← get
    match v with
    | .array a => return (w.store.array a).toList.map stray
    | .object _ | .context _ =>
      match w.valueAt? v blockKey, w.valueAt? v actionsKey with
      | some inner, _ => ofValue fuel inner
      | none, some list => return (← elementsOf list).map stray
      | none, none => Exec.reject (.block (w.typeName v))
    | v => Exec.reject (.block (w.typeName v))

/-- The list of actions in a block. -/
def ofBlock : Block → Exec (List BlockItem)
  | .actions as => return as.map action
  | .list as => return as.map action
  | .actionsOf as => return as.map action
  | .handlerOf (some b) => ofBlock b
  | .handlerOf none => Exec.reject (.block "NoneType")
  | .value v => do ofValue ((← get).containerCount + 2) v

/-- Splits the answer of a host into a list of actions to run and a plain value. An empty list is a value. -/
def ofReply (b : Block) : Exec (Except Value (List BlockItem)) := do
  match b with
  | .value v =>
    let w ← get
    if (w.valueAt? v blockKey).isSome || (w.valueAt? v actionsKey).isSome then return .ok (← ofBlock b)
    else return .error v
  | .list [] => return .error (← Exec.newArray #[])
  | b => return .ok (← ofBlock b)

end BlockItem

end EventScript
