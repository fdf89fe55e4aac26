import EventScript.Display

/-!
# Writing the exchange form

Values, keys and paths as data. A container inside itself is written as the number of levels up to it.
-/

namespace EventScript.Exchange

def object (es : List (String × Datum)) : Datum := .object (es.map fun e => (.str e.1, e.2))

def tagged (tag : String) (d : Datum) : Datum := object [(tag, d)]

def option : Option String → Datum
  | some s => .str s
  | none => .null

/-- A whole number that fits a floating point one stands for itself; any other number is its literal text. -/
def number : Number → Datum
  | .int n => if n.natAbs < Nat.pow 2 53 then .num (.int n) else tagged "$i" (.str (Decimal.intText n))
  | n => tagged "$f" (.str n.literalText)

def int (n : Int) : Datum := number (.int n)

def key : Key → Datum
  | .str s => .str s
  | .null => .null
  | .bool b => .bool b
  | .num n => number n
  | .foreign _ t => .str t

def address (h : HandlerPath) : Datum :=
  object [("module", .str h.module), ("path", .str h.path), ("method", option h.method),
    ("pathfrag", option h.fragment)]

def blob (b : Blob) : Datum :=
  tagged "$blob" (object [("mime", .str b.mime), ("data", .str b.data), ("name", option b.name)])

def error (e : ErrorRecord) : Datum :=
  tagged "$error" (object [("message", .str e.message), ("context", .str (e.stack.render "")),
    ("event", option e.event), ("cause", option e.cause)])

/-- Writes a value inside the containers `active`, innermost first. -/
def valueFrom (w : World) : (fuel : Nat) → (active : List Value) → Value → Datum
  | 0, _, _ => .null
  | fuel + 1, active, v =>
    let entries (es : Entries Value) : Datum :=
      .array (es.map fun e => .array [key e.1, valueFrom w fuel (v :: active) e.2])
    match active.findIdx? (· == v) with
    | some i =>
      if v.kind == .array || v.kind == .object then tagged "$cycle" (int (i + 1)) else .null
    | none =>
      match v with
      | .null => .null
      | .bool b => .bool b
      | .num n => number n
      | .str s => .str s
      | .absent => tagged "$noattr" (.bool true)
      | .array a => .array ((w.store.array a).toList.map (valueFrom w fuel (v :: active)))
      | .object o => tagged "$o" (entries (w.store.object o))
      | .context _ => tagged "$ctx" (entries (w.entries v))
      | .blob b => blob (w.store.blob b)
      | .lambda l =>
        match w.store.lambda l with
        | .native _ => tagged "$lambda" (.str "native")
        | .closure .. => tagged "$lambda" (.str "expr")
      | .nodes n => tagged "$children" (.array ((w.store.nodeList n).map fun x => .str x.id))
      | .error e => error (w.store.error e)
      | .handle h =>
        tagged "$lv" (.array [.str (w.store.handleClass h), .str (w.store.handlePath h)])
      | .foreign f =>
        match (w.store.foreign f).path with
        | some p => tagged "$hpath" (address p)
        | none => tagged "$opaque" (.str (w.store.foreign f).typeName)

/-- Writes a value. -/
def value (w : World) (v : Value) : Datum := valueFrom w (2 * w.containerCount + 2) [] v

def entries (w : World) (es : Entries Value) : Datum :=
  tagged "$o" (.array (es.map fun e => .array [key e.1, value w e.2]))

def part : Part → Datum
  | .root r => .array [.str "root", .str r.key.name, .num (.int r.caret)]
  | .key k => .array [.str "map", .str k]
  | .index i => .array [.str "idx", int i]
  | .dyn _ => .array [.str "dyn"]
  | .deref _ => .array [.str "deref"]

def path (p : Path) : Datum := .array (p.parts.map part)

mutual

/-- Writes a datum that is a value itself. -/
def datum : Datum → Datum
  | .null => .null
  | .bool b => .bool b
  | .num n => number n
  | .str s => .str s
  | .array items => .array (data items)
  | .object es => tagged "$o" (.array (dataEntries es))

def data : List Datum → List Datum
  | [] => []
  | d :: rest => datum d :: data rest

def dataEntries : List (Key × Datum) → List Datum
  | [] => []
  | (k, d) :: rest => .array [key k, datum d] :: dataEntries rest

end

end EventScript.Exchange
