import EventScript.Structural.Follow

/-!
# Copies and cycles

A deep copy of a value has arrays, objects and blobs of its own and shares nothing with itself. A value that holds
itself has no copy, and the trail to the place where it does is found in the same way.
-/

namespace EventScript

/-- The label of an element in a trail. -/
def indexLabel (i : Nat) : String := "[" ++ toString i ++ "]"

/-- The label of a key in the trail of a search: whole numbers stand in brackets. -/
def Key.trailLabel : Key → String
  | .bool b => "[" ++ Key.text (.bool b) ++ "]"
  | .num (.int n) => "[" ++ toString n ++ "]"
  | k => k.text

/-- What stands in place of a handle: what it leads to, or itself. -/
def seeThrough (read : HandleId → Exec Value) (resolve : Bool) (v : Value) : Exec Value :=
  if resolve then follow read defaultHandleDepth v else pure v

/-- Copies a value inside the containers `active`; `trail` leads to it, last step first. -/
def copyFrom (read : HandleId → Exec Value) (resolve : Bool) :
    (fuel : Nat) → (active : List Value) → (trail : List String) → Value → Exec Value
  | 0, _, _, _ => throw (.tooDeep .calling)
  | fuel + 1, active, trail, v => do
    let v ← seeThrough read resolve v
    match v with
    | .array a =>
      if active.contains v then throw (.cycle trail.reverse)
      let items ← ((← Exec.store).array a).toList.zipIdx.mapM fun x =>
        copyFrom read resolve fuel (v :: active) (indexLabel x.2 :: trail) x.1
      Exec.newArray items.toArray
    | .object _ | .context _ =>
      if active.contains v then throw (.cycle trail.reverse)
      let entries ← ((← get).entries v).mapM fun e => do
        return (e.1, ← copyFrom read resolve fuel (v :: active) (e.1.text :: trail) e.2)
      Exec.newObject entries
    | .blob b => Exec.newBlob ((← Exec.store).blob b)
    | v => return v

/-- A deep copy. Handles are followed if `resolve` says so and shared if not. -/
def deepCopy (read : HandleId → Exec Value) (resolve : Bool) (v : Value) : Exec Value := do
  copyFrom read resolve ((← get).holderCount + 2) [] ["root"] v

/-- The first of some computed results that is there. -/
def firstFound {α β : Type} (f : α → Exec (Option β)) : List α → Exec (Option β)
  | [] => return none
  | x :: rest => do
    match ← f x with
    | some y => return some y
    | none => firstFound f rest

/-- The trail to the first container inside itself, from a value inside the containers `active`. -/
def cycleFrom (read : HandleId → Exec Value) (resolve : Bool) :
    (fuel : Nat) → (active : List Value) → (trail : List String) → Value → Exec (Option (List String))
  | 0, _, _, _ => throw (.tooDeep .calling)
  | fuel + 1, active, trail, v => do
    let v ← seeThrough read resolve v
    match v with
    | .array a =>
      if active.contains v then return some trail.reverse
      firstFound (fun x => cycleFrom read resolve fuel (v :: active) (indexLabel x.2 :: trail) x.1)
        ((← Exec.store).array a).toList.zipIdx
    | .object _ | .context _ =>
      if active.contains v then return some trail.reverse
      firstFound (fun e => cycleFrom read resolve fuel (v :: active) (e.1.trailLabel :: trail) e.2)
        ((← get).entries v)
    | _ => return none

/-- The trail to the first container that holds itself, if there is one. -/
def findCycle (read : HandleId → Exec Value) (resolve : Bool) (v : Value) :
    Exec (Option (List String)) := do
  cycleFrom read resolve ((← get).holderCount + 2) [] ["root"] v

/-- Fails on a value in which a container holds itself. -/
def checkCycle (read : HandleId → Exec Value) (resolve : Bool) (v : Value) : Exec Unit := do
  match ← findCycle read resolve v with
  | some trail => throw (.cycle trail)
  | none => return ()

end EventScript
