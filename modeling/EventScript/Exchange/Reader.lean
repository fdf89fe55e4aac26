import EventScript.Exchange.Names

/-!
# Reading the exchange form

JSON values stand for themselves, and every object is a tag. An expression is an array that begins with its kind;
an action is an object with its kind in the field `a`. Parts are read before what they are parts of.
-/

namespace EventScript.Exchange

open Reading

/-- The failure that a kind and a text stand for. -/
def readFault (kind : String) (text : Option String) : Reading Fault := do
  let t := text.getD ""
  match kind with
  | "KeyError" => return .host .key ((text.map Text.quoted).getD "")
  | "TypeError" => return .host .type t
  | "ResolutionError" => return .unresolved (.refused t)
  | "ConstructionError" => return .malformed (.other t)
  | "RuntimeLimitError" => return .ceiling (.other t) none
  | "UserThrownError" => return .thrown (← exec (Exec.newError { message := t })) t
  | _ => return .host .value t

/-- The bytes that pairs of hexadecimal digits spell. -/
def readBytes : List Char → List UInt8
  | a :: b :: rest =>
    UInt8.ofNat (16 * (Json.hexValue? a).getD 0 + (Json.hexValue? b).getD 0) :: readBytes rest
  | _ => []

/-- A blob from a text, from bytes, or from base64 text. -/
def readBlob (d : Datum) : Blob :=
  let name := d.textField? "name"
  match d.textField? "text", d.textField? "hex" with
  | some t, _ => Blob.ofText t (d.textField "mime" "text/plain") name
  | none, some h => Blob.ofBytes (readBytes h.toList) (d.textField "mime" "application/octet-stream") name
  | none, none => { mime := d.textField "mime" "", data := d.textField "data" "", name }

def readAddress (d : Datum) : HandlerPath :=
  { module := d.textField "module" "", path := d.textField "path" ""
    method := d.textField? "method", fragment := d.textField? "pathfrag" }

/-- The literal text of an address. -/
def addressLiteral (h : HandlerPath) : String :=
  let option (s : Option String) : String := (s.map Text.quoted).getD "None"
  "HandlerPath(module=" ++ Text.quoted h.module ++ ", path=" ++ Text.quoted h.path ++ ", method="
    ++ option h.method ++ ", pathfrag=" ++ option h.fragment ++ ")"

/-- An address as a value. -/
def newAddress (h : HandlerPath) : Exec Value := do
  return .foreign (← Exec.allocate (·.newForeign
    { typeName := "HandlerPath", text := addressLiteral h, path := some h }))

def readNode (d : Datum) : Node :=
  { tag := d.textField "tag" "", slot := (d.field "attrs").textField? "slot", id := d.textField "id" "" }

/-- A floating point number from its text. -/
def readFloat (s : String) : Reading Number := do
  let (negative, body) := Number.splitSign s.toList
  if body == "inf".toList then return Number.infinity negative
  if body == "nan".toList then return .nan (← exec Exec.freshNan)
  match Number.readDecimal negative body with
  | some x => return .float x
  | none => refuse s

/-- An error record with a call stack of plain descriptions. -/
def readErrorRecord (d : Datum) : Reading ErrorId := do
  let cause ← match d.field "cause" with
    | .array [.str kind, text] => do pure (some (← readFault kind text.text?).message)
    | _ => pure none
  exec (Exec.newError
    { message := d.textField "message" "", cause, event := d.textField? "event"
      stack := { frames := (d.field "frames").items.map fun f => { desc := f.text } } })

/-- The element of a list at most one may be in. -/
def firstInt (ds : List Datum) : Int := (ds.head?.bind Datum.int?).getD 0

mutual

/-- Reads a key. -/
def readKey : (fuel : Nat) → Datum → Reading Key
  | _, .str s => return .str s
  | _, .null => return .null
  | _, .bool b => return .bool b
  | _, .num n => return .num n
  | 0, _ => refuse "key"
  | fuel + 1, d => do
    match ← readValueFrom fuel d with
    | .num n => return .num n
    | _ => refuse "key"

def readEntriesFrom : (fuel : Nat) → Datum → Reading (Entries Value)
  | 0, _ => return []
  | fuel + 1, d => do
    let es ← d.items.mapM fun e =>
      match e with
      | .array [k, v] => do return (← readKey fuel k, ← readValueFrom fuel v)
      | _ => refuse "entry"
    return Entries.ofList es

/-- Reads a value and names it; a container has its name already while its contents are read. -/
def readNamed : (fuel : Nat) → String → Datum → Reading Value
  | 0, _, _ => refuse "value"
  | fuel + 1, name, d => do
    match d with
    | .array items =>
      let a ← exec (Exec.allocate (·.newArray #[]))
      nameValue name (.array a)
      let vs ← items.mapM (readValueFrom fuel)
      exec (modify fun w => { w with store := w.store.setArray a vs.toArray })
      return .array a
    | d =>
      match d.field? "$o" with
      | some es =>
        let o ← exec (Exec.allocate (·.newObject []))
        nameValue name (.object o)
        let es ← readEntriesFrom fuel es
        exec (modify fun w => { w with store := w.store.setObject o es })
        return .object o
      | none =>
        let v ← readValueFrom fuel d
        nameValue name v
        return v

/-- Reads a handle over a cell, which is made where its name is met first. -/
def readCellHandle : (fuel : Nat) → Datum → Reading Value
  | 0, _ => refuse "cell"
  | fuel + 1, d => do
    let path ← match d.field? "path" with
      | some p => readPathFrom fuel p
      | none => pure (.ofRoot .global)
    let handle (c : CellId) : Reading Value := do return .handle (← exec (Exec.newRooted c path))
    match d.textField? "name" with
    | none =>
      let v ← readValueFrom fuel (d.field "v")
      handle (← exec (Exec.allocate (·.newCell { value := v })))
    | some name =>
      match named? name (← get).names.cells with
      | some c => handle c
      | none =>
        let c ← exec (Exec.allocate (·.newCell { value := .null }))
        nameCell name c
        let v ← readValueFrom fuel (d.field "v")
        exec (modify fun w =>
          { w with store := w.store.setCell c { w.store.cell c with value := v } })
        handle c

/-- Reads a function value with an expression. -/
def readLambda : (fuel : Nat) → Datum → Reading Value
  | 0, _ => refuse "lambda"
  | fuel + 1, d => do
    match d.field "expr" with
    | .null => throw .emptyLambda
    | e =>
      let body ← readExprFrom fuel e
      let v ← exec (Exec.newLambda (.closure body none))
      if let some name := d.textField? "env" then bindNamed v name
      return v

def readValueFrom : (fuel : Nat) → Datum → Reading Value
  | _, .null => return .null
  | _, .bool b => return .bool b
  | _, .num n => return .num n
  | _, .str s => return .str s
  | 0, _ => refuse "value"
  | fuel + 1, .array items => do exec (Exec.newArray (← items.mapM (readValueFrom fuel)).toArray)
  | fuel + 1, d@(.object fields) => do
    if let some v := d.field? "v" then
      if let some name := d.field? "$def" then return ← readNamed fuel name.text v
    match fields with
    | (.str tag, x) :: _ =>
      match tag, x with
      | "$i", .str s => return .int ((readWhole? s).getD 0)
      | "$f", .str s => return .num (← readFloat s)
      | "$o", es => exec (Exec.newObject (← readEntriesFrom fuel es))
      | "$use", name =>
        match named? name.text (← get).names.values with
        | some v => return v
        | none => refuse name.text
      | "$rep", .array [.str s, .num (.int n)] =>
        return .str (String.join (List.replicate n.toNat s))
      | "$rep", .array [base, .num (.int n)] =>
        match ← readValueFrom fuel base with
        | .array a =>
          let xs := ((← world).store.array a).toList
          exec (Exec.newArray (List.replicate n.toNat xs).flatten.toArray)
        | _ => refuse tag
      | "$noattr", _ => return .absent
      | "$blob", b => exec (Exec.newBlob (readBlob b))
      | "$lambda", l => readLambda fuel l
      | "$native", .str name => exec (Exec.newLambda (.native name))
      | "$children", nodes => exec (Exec.newNodes (nodes.items.map readNode))
      | "$error", e => return .error (← readErrorRecord e)
      | "$ref", r =>
        let p ← readPathFrom fuel (r.field "path")
        let v ← exec (Exec.newHandle (.bound p none))
        bindNamed v (r.textField "env" "root")
        return v
      | "$cell", c => readCellHandle fuel c
      | "$ro", h =>
        match ← readValueFrom fuel h with
        | .handle h => exec (Exec.newHandle (.readOnly h))
        | _ => refuse tag
      | "$hpath", h => exec (newAddress (readAddress h))
      | "$opaque", _ =>
        return .foreign (← exec (Exec.allocate (·.newForeign
          { typeName := "Opaque", text := "<opaque>" })))
      | _, _ => refuse tag
    | _ => refuse "object"

def readPart : (fuel : Nat) → Datum → Reading Part
  | 0, _ => refuse "part"
  | fuel + 1, d => do
    match d.items with
    | .str "root" :: .str key :: more =>
      let v ← match more with
        | [_, v] => readValueFrom fuel v
        | _ => pure .null
      return .root (← check (Root.make key (firstInt more) v))
    | [.str "map", .str k] => return .key k
    | [.str "idx", .num (.int i)] => return .index i
    | [.str "idx", i] =>
      match ← readValueFrom fuel i with
      | .num (.int i) => return .index i
      | _ => refuse "index"
    | [.str "dyn", e] => return .dyn (← readExprFrom fuel e)
    | [.str "deref", e] => return .deref (← readExprFrom fuel e)
    | _ => refuse "part"

/-- Reads a path: a text, or a list of parts. -/
def readPathFrom : (fuel : Nat) → Datum → Reading Path
  | _, .str s => check (Path.read s)
  | 0, _ => refuse "path"
  | fuel + 1, .array parts => do check (Path.ofParts (← parts.mapM (readPart fuel)))
  | fuel + 1, d => do
    let v ← readValueFrom fuel d
    throw (.malformed (.notPathLike ((← world).typeName v)))

def readExprsFrom : (fuel : Nat) → Datum → Reading (List Expr)
  | 0, _ => return []
  | fuel + 1, d => d.items.mapM (readExprFrom fuel)

/-- Reads an expression that may be null. -/
def readOptionFrom : (fuel : Nat) → Option Datum → Reading (Option Expr)
  | 0, _ => return none
  | fuel + 1, d => do
    match d with
    | none | some .null => return none
    | some e => return some (← readExprFrom fuel e)

def readExprFrom : (fuel : Nat) → Datum → Reading Expr
  | 0, _ => refuse "expression"
  | fuel + 1, d => do
    match d with
    | .null => return .missing
    | d =>
      match d.items with
      | [.str "lit", v] => return .literal (← readValueFrom fuel v)
      | [.str "path", p] => return .path (← readPathFrom fuel p)
      | [.str "arr", es] => return .array (← readExprsFrom fuel es)
      | [.str "map", es] =>
        return .object (← es.items.mapM fun e =>
          match e with
          | .array [k, v] => do return (← readExprFrom fuel k, ← readExprFrom fuel v)
          | _ => refuse "map")
      | [.str "range", a, b] => return .range (← readExprFrom fuel a) (← readExprFrom fuel b)
      | [.str "op", .str o, es] => check (Expr.makeOp o (← readExprsFrom fuel es))
      | [.str "fn", .str name, es] => return .call name (← readExprsFrom fuel es)
      | .str "filter" :: .str name :: e :: more =>
        let e ← readExprFrom fuel e
        check (Expr.makeFilter name e (← readOptionFrom fuel more.head?))
      | [.str "ref", p] => return .ref (← readPathFrom fuel p)
      | [.str "isref", e] => return .isRef (← readExprFrom fuel e)
      | [.str "refinfo", e] => return .refInfo (← readExprFrom fuel e)
      | .str "invoke" :: e :: more =>
        let e ← readExprFrom fuel e
        return .invoke e (← readOptionFrom fuel more.head?)
      | [.str "lambda", e] => return .lambda (← readExprFrom fuel e)
      | [.str "bad"] => return .foreign "Opaque" "<opaque>"
      | _ => refuse "expression"

end

/-- More levels than reading a datum goes down: each level of data takes at most two. -/
def enough (d : Datum) : Nat := 2 * d.depth + 4

def readValue (d : Datum) : Reading Value := readValueFrom (enough d) d

def readEntries (d : Datum) : Reading (Entries Value) := readEntriesFrom (enough d) d

def readPath (d : Datum) : Reading Path := readPathFrom (enough d) d

def readExpr (d : Datum) : Reading Expr := readExprFrom (enough d) d

/-- Reads the expression in a field, if there is one. -/
def readField (d : Datum) (name : String) : Reading (Option Expr) := do
  match d.field name with
  | .null => return none
  | e => return some (← readExpr e)

def readTarget (d : Datum) : Reading (Option TargetSource) := do
  match d with
  | .null => return none
  | .str s => return some (.text s)
  | d => return some (.path (← readPath d))

mutual

def readActionFrom : (fuel : Nat) → Datum → Reading Action
  | 0, _ => refuse "action"
  | fuel + 1, d => do
    let needed (name : String) : Reading Expr := do return (← readField d name).getD .missing
    match d.textField "a" "" with
    | "setdata" =>
      match ← readTarget (d.field "target") with
      | some target =>
        let data ← needed "data"
        check (Action.makeAssign target (d.textField? "op") data)
      | none => throw (.malformed (.notPathLike "NoneType"))
    | "if" =>
      let test ← needed "cond"
      let thenBlock ← readActionsFrom fuel (d.field "then")
      let elseBlock ← match d.field "else" with
        | .null => pure none
        | as => do pure (some (← readActionsFrom fuel as))
      return .cond test thenBlock elseBlock
    | "return" => return .setReturn (← needed "data")
    | "call" =>
      let callee ← readField d "callpath"
      let data ← readField d "data"
      let target ← readTarget (d.field "target")
      let url ← readField d "url"
      let method ← readField d "method"
      let module ← readField d "module"
      check (Action.makeCall callee data target (d.textField? "op") url method module
        (d.boolField "pure" false))
    | "invalidate" => return .invalidate (← readField d "data")
    | "fire" =>
      let event ← match d.field "event" with
        | .str s => pure (.literal (.str s))
        | e => readExpr e
      let data ← readField d "data"
      return .fire event data (d.boolField "bubble" false) (← readField d "target")
    | "log" => return .log (← (d.field "exprs").items.mapM readExpr) (d.boolField "debug" false)
    | "throw" => return .throw (← needed "data")
    | "nop" => return .nop
    | "html" => return .markup (← needed "data")
    | "bad" => return .foreign "BadAction" "action" "<bad action>"
    | kind => refuse kind

/-- Reads a list of actions, in which one may stand for several. -/
def readActionsFrom : (fuel : Nat) → Datum → Reading (List Action)
  | 0, _ => refuse "actions"
  | fuel + 1, d => do
    let groups ← d.items.mapM fun a =>
      match a.field? "repeat" with
      | some n => do
        let action ← readActionFrom fuel (a.field "action")
        return List.replicate (n.int?.getD 0).toNat action
      | none => do return [← readActionFrom fuel a]
    return groups.flatten

end

def readAction (d : Datum) : Reading Action := readActionFrom (enough d) d

def readActions (d : Datum) : Reading (List Action) := readActionsFrom (enough d) d

def readBlockFrom : (fuel : Nat) → Datum → Reading (Option Block)
  | 0, _ => refuse "block"
  | fuel + 1, d => do
    match d with
    | .null => return none
    | .array _ => return some (.list (← readActions d))
    | .object ((.str tag, x) :: _) =>
      match tag with
      | "block" => return some (.actions (← readActions x))
      | "map_handler" => return some (.handlerOf (← readBlockFrom fuel x))
      | "map_actions" => return some (.actionsOf (← readActions x))
      | "value" =>
        match ← readValue x with
        | .null => return none
        | v => return some (.value v)
      | tag => refuse tag
    | _ => refuse "block"

/-- Reads what stands where a block is expected. -/
def readBlock (d : Datum) : Reading (Option Block) := readBlockFrom (enough d) d

end EventScript.Exchange
