import EventScript.Yaml.Tag
import EventScript.Yaml.Token

/-!
# The graph of nodes of a YAML text

A text is a graph: a node that an anchor names may stand in several places, even inside itself. Nodes are known by
their places in a table.
-/

namespace EventScript.Yaml

abbrev NodeId := Nat

inductive Content where
  | scalar (text : String)
  | sequence (items : List NodeId)
  | mapping (entries : List (NodeId × NodeId))
  deriving DecidableEq, Repr, Inhabited

structure Node where
  tag : Tag
  content : Content
  deriving DecidableEq, Repr, Inhabited

abbrev Graph := Array Node

/-- How far a text is read: the tokens left, the nodes so far, their anchors, and what the handles of tags stand
for. -/
structure Draft where
  tokens : List Token
  nodes : Graph := #[]
  anchors : List (String × NodeId) := []
  handles : List (String × String) := []

abbrev Drafting := StateT Draft (Except Refusal)

namespace Drafting

def refuse {α : Type} : Drafting α := throw .malformed

def peek? : Drafting (Option Token) := do return (← get).tokens.head?

def skip : Drafting Unit := modify fun d => { d with tokens := d.tokens.tail }

/-- Whether the next token is one of these. -/
def isNext (ts : List Token) : Drafting Bool := do return (← peek?).any ts.contains

/-- Takes in a token if it is next. -/
def accept (t : Token) : Drafting Bool := do
  if (← peek?) == some t then
    skip
    return true
  else return false

/-- Takes in a token that must be next. -/
def expect (t : Token) : Drafting Unit := do
  if !(← accept t) then refuse

def add (n : Node) : Drafting NodeId :=
  modifyGet fun d => (d.nodes.size, { d with nodes := d.nodes.push n })

/-- Names a node. -/
def name (anchor : Option String) (n : NodeId) : Drafting Unit :=
  match anchor with
  | none => pure ()
  | some a => modify fun d => { d with anchors := (a, n) :: d.anchors }

def fill (n : NodeId) (content : Content) : Drafting Unit :=
  modify fun d => { d with nodes := d.nodes.modify n fun node => { node with content } }

/-- A node that is not written at all. -/
def nothing : Drafting NodeId := add { tag := .null, content := .scalar "" }

/-- The full tag of a written one. -/
def fullTag (t : TagText) : Drafting String := do
  match t.handle with
  | none => return t.suffix
  | some h =>
    match (← get).handles.lookup h with
    | some start => return start ++ t.suffix
    | none => refuse

/-- The anchor and the tag before a node, in either order. -/
def properties : Drafting (Option String × Option String) := do
  let anchor? : Drafting (Option String) := do
    match ← peek? with
    | some (.anchor a) =>
      skip
      return some a
    | _ => return none
  let tag? : Drafting (Option String) := do
    match ← peek? with
    | some (.tag t) =>
      skip
      return some (← fullTag t)
    | _ => return none
  let first ← anchor?
  let tag ← tag?
  let anchor ← if first.isNone && tag.isSome then anchor? else pure first
  return (anchor, tag)

/-- A tag that leaves the type open. -/
def isOpen (tag : Option String) : Bool := tag.all (· == "!")

/-- The type of a scalar: that of its tag; else, if it is plain or has an open tag, the one its text tells. -/
def scalarTag (tag : Option String) (text : String) (plain : Bool) : Tag :=
  match tag with
  | none => if plain then .ofPlain text else .str
  | some t => if t == "!" then .ofPlain text else .ofName t

/-- The type of a collection. -/
def collectionTag (tag : Option String) (own : Tag) : Tag :=
  match tag with
  | some t => if isOpen tag then own else .ofName t
  | none => own

mutual

/-- A node. In block form it may be a block collection, and with `indentless` a sequence that stands no deeper
than the key before it. -/
def node (block indentless : Bool) : (fuel : Nat) → Drafting NodeId
  | 0 => refuse
  | fuel + 1 => do
    if let some (.alias a) ← peek? then
      skip
      match (← get).anchors.lookup a with
      | some n => return n
      | none => refuse
    else
      let (anchor, tag) ← properties
      if let some a := anchor then
        if ((← get).anchors.lookup a).isSome then refuse
      let sequence (items : Drafting (List NodeId)) : Drafting NodeId := do
        let n ← add { tag := collectionTag tag .sequence, content := .sequence [] }
        name anchor n
        fill n (.sequence (← items))
        return n
      let mapping (entries : Drafting (List (NodeId × NodeId))) : Drafting NodeId := do
        let n ← add { tag := collectionTag tag .mapping, content := .mapping [] }
        name anchor n
        fill n (.mapping (← entries))
        return n
      let scalar (text : String) (plain : Bool) : Drafting NodeId := do
        let n ← add { tag := scalarTag tag text plain, content := .scalar text }
        name anchor n
        return n
      match ← peek? with
      | some .blockEntry =>
        if indentless then sequence (indentlessItems fuel)
        else if anchor.isSome || tag.isSome then scalar "" true
        else refuse
      | some (.scalar text plain) =>
        skip
        scalar text plain
      | some .flowSequenceStart =>
        skip
        sequence (flowItems true fuel)
      | some .flowMappingStart =>
        skip
        mapping (flowEntries true fuel)
      | next =>
        if block && next == some .blockSequenceStart then
          skip
          sequence (blockItems fuel)
        else if block && next == some .blockMappingStart then
          skip
          mapping (blockEntries fuel)
        else if anchor.isSome || tag.isSome then scalar "" true
        else refuse

/-- A node, or nothing if one of these tokens is next. -/
def nodeUnless (stops : List Token) (block indentless : Bool) : (fuel : Nat) → Drafting NodeId
  | 0 => refuse
  | fuel + 1 => do if ← isNext stops then nothing else node block indentless fuel

/-- The items of a block sequence, with its end. -/
def blockItems : (fuel : Nat) → Drafting (List NodeId)
  | 0 => refuse
  | fuel + 1 => do
    if ← accept .blockEntry then
      let n ← nodeUnless [.blockEntry, .blockEnd] true false fuel
      return n :: (← blockItems fuel)
    expect .blockEnd
    return []

/-- The items of a sequence that has no column of its own. -/
def indentlessItems : (fuel : Nat) → Drafting (List NodeId)
  | 0 => refuse
  | fuel + 1 => do
    if ← accept .blockEntry then
      let n ← nodeUnless [.blockEntry, .key, .value, .blockEnd] true false fuel
      return n :: (← indentlessItems fuel)
    return []

/-- The entries of a block mapping, with its end. -/
def blockEntries : (fuel : Nat) → Drafting (List (NodeId × NodeId))
  | 0 => refuse
  | fuel + 1 => do
    if ← accept .key then
      let k ← nodeUnless [.key, .value, .blockEnd] true true fuel
      let v ← if ← accept .value then nodeUnless [.key, .value, .blockEnd] true true fuel else nothing
      return (k, v) :: (← blockEntries fuel)
    expect .blockEnd
    return []

/-- The items of a flow sequence, with its end. An entry with a key is a mapping of its own. -/
def flowItems (first : Bool) : (fuel : Nat) → Drafting (List NodeId)
  | 0 => refuse
  | fuel + 1 => do
    if ← accept .flowSequenceEnd then return []
    if !first then expect .flowEntry
    if ← accept .key then
      let pair ← add { tag := .mapping, content := .mapping [] }
      let k ← nodeUnless [.value, .flowEntry, .flowSequenceEnd] false false fuel
      let v ← if ← accept .value then nodeUnless [.flowEntry, .flowSequenceEnd] false false fuel
        else nothing
      fill pair (.mapping [(k, v)])
      return pair :: (← flowItems false fuel)
    if ← accept .flowSequenceEnd then return []
    let n ← node false false fuel
    return n :: (← flowItems false fuel)

/-- The entries of a flow mapping, with its end. -/
def flowEntries (first : Bool) : (fuel : Nat) → Drafting (List (NodeId × NodeId))
  | 0 => refuse
  | fuel + 1 => do
    if ← accept .flowMappingEnd then return []
    if !first then expect .flowEntry
    if ← accept .key then
      let k ← nodeUnless [.value, .flowEntry, .flowMappingEnd] false false fuel
      let v ← if ← accept .value then nodeUnless [.flowEntry, .flowMappingEnd] false false fuel
        else nothing
      return (k, v) :: (← flowEntries false fuel)
    if ← accept .flowMappingEnd then return []
    let k ← node false false fuel
    let v ← nothing
    return (k, v) :: (← flowEntries false fuel)

end

/-! ### The document -/

/-- What handles stand for when no directive says so. -/
def standardHandles : List (String × String) := [("!", "!"), ("!!", Tag.standard)]

/-- The directives before a document: a version at most once, which must be the first one, and handles, each at
most once. -/
def directives : (fuel : Nat) → (versioned : Bool) → (handles : List (String × String)) →
    Drafting (List (String × String))
  | 0, _, _ => refuse
  | fuel + 1, versioned, handles => do
    match ← peek? with
    | some (.directive d) =>
      skip
      match d with
      | .version major =>
        if versioned || major != 1 then refuse
        directives fuel true handles
      | .handle h target =>
        if (handles.lookup h).isSome then refuse
        directives fuel versioned (handles ++ [(h, target)])
      | .other => directives fuel versioned handles
    | _ => return handles ++ standardHandles

/-- Past the marks of the end of a document. -/
def documentEnds : (fuel : Nat) → Drafting Unit
  | 0 => pure ()
  | fuel + 1 => do if ← accept .documentEnd then documentEnds fuel

/-- The first node of a text that holds one document or none. -/
def document (fuel : Nat) : Drafting (Option NodeId) := do
  match ← peek? with
  | none => return none
  | some t =>
    let explicit := match t with
      | .directive _ | .documentStart => true
      | _ => false
    let root ←
      if explicit then do
        let handles ← directives fuel false []
        modify fun d => { d with handles }
        expect .documentStart
        match ← peek? with
        | none | some (.directive _) | some .documentStart | some .documentEnd => nothing
        | _ => node true false fuel
      else do
        modify fun d => { d with handles := standardHandles }
        node true false fuel
    documentEnds fuel
    if (← peek?).isSome then refuse
    return some root

end Drafting

/-- The nodes of a text and the first of them, if there is one. -/
def Graph.ofText (text : String) : Except Refusal (Graph × Option NodeId) := do
  let tokens ← Token.ofText text
  let (root, d) ← (Drafting.document (4 * tokens.length + 8)).run { tokens }
  return (d.nodes, root)

end EventScript.Yaml
