import EventScript.Display
import EventScript.Yaml.Node
import EventScript.Yaml.Scalar

/-!
# The value of a YAML text

Each node becomes one value of the store, so that a node in several places is the same array or object in all of
them, and one inside itself makes an array or object that holds itself. Collections are made empty and filled in
the order in which they were met.
-/

namespace EventScript.Yaml

/-- How far a graph is made into values: its nodes, the values made so far, and the collections still to be
filled, each with its value. -/
structure Building where
  nodes : Graph
  made : Array (Option Value)
  waiting : List (NodeId × Value) := []

/-- A step from nodes to values. -/
abbrev Build := StateT Building Exec

namespace Build

def refuse {α : Type} (r : Refusal) : Build α := throw (.yaml r)

def ofExcept {α : Type} (e : Except Refusal α) : Build α :=
  match e with
  | .ok a => pure a
  | .error r => refuse r

def node (n : NodeId) : Build Node := do return (← get).nodes.getD n default

/-! ### Merged mappings -/

mutual

/-- Puts the entries of the mappings under merge marks before a mapping's own; the mapping under a later mark, and
in a list the one that comes first, goes last. Each level of marks takes one from `fuel`. -/
def flatten : (fuel : Nat) → NodeId → Build (List (NodeId × NodeId))
  | 0, _ => refuse .malformed
  | fuel + 1, n => do
    match (← node n).content with
    | .mapping entries =>
      let merged ← mergeMarks fuel n entries
      modify fun b => { b with nodes := b.nodes.modify n fun m =>
        match m.content with
        | .mapping own => { m with content := .mapping (merged ++ own) }
        | _ => m }
      match (← node n).content with
      | .mapping entries => return entries
      | _ => return []
    | _ => refuse .malformed

/-- The entries under the merge marks among `entries`, which are taken out of the mapping `n` one by one. -/
def mergeMarks : (fuel : Nat) → (n : NodeId) → List (NodeId × NodeId) → Build (List (NodeId × NodeId))
  | 0, _, _ => refuse .malformed
  | _ + 1, _, [] => return []
  | fuel + 1, n, (k, v) :: rest => do
    match (← node k).tag with
    | .merge =>
      modify fun b => { b with nodes := b.nodes.modify n fun m =>
        match m.content with
        | .mapping own => { m with content := .mapping (own.erase (k, v)) }
        | _ => m }
      let merged ← match (← node v).content with
        | .mapping _ => flatten fuel v
        | .sequence items => mergeItems fuel items
        | .scalar _ => refuse .malformed
      return merged ++ (← mergeMarks fuel n rest)
    | .default =>
      modify fun b => { b with nodes := b.nodes.modify k fun m => { m with tag := .str } }
      mergeMarks fuel n rest
    | _ => mergeMarks fuel n rest

/-- The entries of some mappings, those of the last one first. -/
def mergeItems : (fuel : Nat) → List NodeId → Build (List (NodeId × NodeId))
  | 0, _ => refuse .malformed
  | _ + 1, [] => return []
  | fuel + 1, m :: rest => do
    let first ← flatten fuel m
    let others ← mergeItems fuel rest
    return others ++ first

end

/-! ### Values -/

/-- The text of a scalar. A mapping stands for its entry under the default mark. -/
def scalarText : (fuel : Nat) → NodeId → Build String
  | 0, _ => throw (.tooDeep .calling)
  | fuel + 1, n => do
    match (← node n).content with
    | .scalar text => return text
    | .sequence _ => refuse .malformed
    | .mapping entries =>
      let marked ← entries.filterM fun e => do return (← node e.1).tag == .default
      match marked with
      | e :: _ => scalarText fuel e.2
      | [] => refuse .malformed

/-- Bytes between quotes; what is no printable ASCII is escaped. -/
def bytesText (bs : List UInt8) : String :=
  let quote : Char := if bs.contains 39 && !bs.contains 34 then '"' else '\x27'
  let spell (b : UInt8) : List Char :=
    let c := Char.ofNat b.toNat
    if c == quote || c == '\\' then ['\\', c]
    else if c == '\t' then ['\\', 't']
    else if c == '\n' then ['\\', 'n']
    else if c == '\r' then ['\\', 'r']
    else if 32 ≤ b && b < 127 then [c]
    else '\\' :: 'x' :: Text.hexWidth 2 b.toNat
  String.ofList ('b' :: quote :: bs.flatMap spell ++ [quote])

def newForeign (f : Foreign) : Build Value :=
  show Exec Value from do return .foreign (← Exec.allocate (·.newForeign f))

/-- The value of a scalar. -/
def ofScalar : Scalar → Build Value
  | .null => return .null
  | .bool b => return .bool b
  | .num n => return .num n
  | .str s => return .str s
  | .timestamp t => newForeign { typeName := t.typeName, text := t.literal, plain := some t.text }
  | .bytes bs => newForeign { typeName := "bytes", text := bytesText bs }

/-- The value of a node. A collection is made empty, to be filled later. -/
def value (n : NodeId) : Build Value := do
  match (← get).made[n]? with
  | some (some v) => return v
  | _ =>
    let tag := (← node n).tag
    let v ← match tag with
      | .sequence | .ordered | .pairs => Exec.newArray #[]
      | .mapping => Exec.newObject []
      | .set => newForeign { typeName := "set", text := "set()" }
      | .merge | .default | .other _ => refuse .malformed
      | _ => do
        let text ← scalarText ((← get).nodes.size + 1) n
        ofScalar (← ofExcept (Scalar.read tag text))
    let waits := match tag with
      | .sequence | .ordered | .pairs | .mapping | .set => [(n, v)]
      | _ => []
    modify fun b => { b with made := b.made.setIfInBounds n (some v), waiting := b.waiting ++ waits }
    return v

/-- The key that a value makes; collections make none. -/
def key (v : Value) : Build Key := do
  match v with
  | .null => return .null
  | .bool b => return .bool b
  | .num n => return .num n
  | .str s => return .str s
  | .foreign f =>
    let foreign := (← (Exec.store : Exec Store)).foreign f
    if foreign.typeName == "set" then refuse .malformed
    return .foreign f (foreign.plain.getD foreign.text)
  | _ => refuse .malformed

/-- A bound on how deep merging goes: each step takes a mark away or passes a node. -/
def mergeBound (nodes : Graph) : Nat :=
  nodes.foldl (fun c m => match m.content with
    | .mapping es => c + 4 * (es.length + 1)
    | .sequence items => c + 4 * (items.length + 1)
    | .scalar _ => c + 4) 4

/-- The entries of a mapping, merged ones included. -/
def entries (n : NodeId) : Build (List (Key × Value)) := do
  let pairs ← flatten (mergeBound (← get).nodes) n
  pairs.mapM fun e => do
    let k ← key (← value e.1)
    return (k, ← value e.2)

/-- A pair of a list of pairs: a mapping with one entry. -/
def pair (n : NodeId) : Build Value := do
  match (← node n).content with
  | .mapping [(k, v)] =>
    let left ← value k
    let right ← value v
    let w : World ← getThe World
    newForeign { typeName := "tuple", text := "(" ++ w.literal left ++ ", " ++ w.literal right ++ ")" }
  | _ => refuse .malformed

/-- Fills a collection. -/
def fill (n : NodeId) (v : Value) : Build Unit := do
  let node ← node n
  match node.tag, node.content, v with
  | .sequence, .sequence items, .array a =>
    let values ← items.mapM value
    modifyThe World fun w => { w with store := w.store.setArray a values.toArray }
  | .ordered, .sequence items, .array a | .pairs, .sequence items, .array a =>
    let values ← items.mapM pair
    modifyThe World fun w => { w with store := w.store.setArray a values.toArray }
  | .mapping, .mapping _, .object o =>
    let es ← entries n
    modifyThe World fun w => { w with store := w.store.setObject o (Entries.ofList es) }
  | .set, .mapping _, _ =>
    let _ ← entries n
  | _, _, _ => refuse .malformed

/-- Fills all collections in the order in which they were met. -/
def fillAll : (fuel : Nat) → Build Unit
  | 0 => pure ()
  | fuel + 1 => do
    match (← get).waiting with
    | [] => pure ()
    | (n, v) :: rest =>
      modify fun b => { b with waiting := rest }
      fill n v
      fillAll fuel

end Build

/-- The value of a text; one without any node is null. -/
def load (text : String) : Exec Value := do
  match Graph.ofText text with
  | .error r => throw (.yaml r)
  | .ok (_, none) => return .null
  | .ok (nodes, some root) =>
    let build : Build Value := do
      let v ← Build.value root
      Build.fillAll (nodes.size + 1)
      return v
    build.run' { nodes, made := Array.replicate nodes.size none }

end EventScript.Yaml
