import EventScript.Script
import EventScript.CallStack
import EventScript.Text.Base64
import EventScript.Text.Utf8

/-!
# The store

All objects that values refer to. Every kind of object has its own pool, and a reference is a place in the
pool; objects are never removed. Arrays, objects, blobs, cells and error records can change in place.
-/

namespace EventScript

/-- Bytes kept as base64 text, with a media type and perhaps a name. -/
structure Blob where
  mime : String
  data : String
  name : Option String := none
  deriving DecidableEq, Inhabited

namespace Blob

def ofBytes (bytes : List UInt8) (mime : String) (name : Option String) : Blob :=
  { mime, data := String.ofList (Text.Base64.encode bytes), name }

def ofText (text : String) (mime : String) (name : Option String) : Blob :=
  ofBytes (Text.Utf8.encode text.toList) mime name

def bytes (b : Blob) : Except Text.Base64.Malformed (List UInt8) := Text.Base64.decode b.data.toList

/-- The text of the bytes, read as UTF-8. -/
def text (b : Blob) : Except Text.Base64.Malformed String :=
  b.bytes.map fun bs => String.ofList (Text.Utf8.decode bs)

/-- The number of bytes, from the length and the padding of the text alone. -/
def byteLength (b : Blob) : Nat :=
  let cs := b.data.toList
  let n := cs.length
  if n % 4 == 0 then n * 3 / 4 - (cs.drop (n - 2)).count '=' else (n * 3 + 3) / 4

def dataUrl (b : Blob) : String := "data:" ++ b.mime ++ ";base64," ++ b.data

/-- A blob in one line, without its bytes. -/
def display (b : Blob) : String :=
  let name := match b.name with
    | some n => ", name=" ++ n
    | none => ""
  "[hibikiblob type=" ++ b.mime ++ ", len=" ++ toString b.byteLength ++ name ++ "]"

end Blob

/-- A function value: an expression with the scope it was made in, if one is kept, or a function of the host
known by name. -/
inductive Lambda where
  | closure (body : Expr) (scope : Option ScopeId)
  | native (name : String)

instance : Inhabited Lambda := ⟨.native ""⟩

/-- A markup node that belongs to someone else. -/
structure Node where
  tag : String
  slot : Option String
  id : String
  deriving DecidableEq, Inhabited

/-- An error as a value: the message, the call stack when it arose, the event in which it did, and the text of
its cause. -/
structure ErrorRecord where
  message : String
  stack : CallStack := {}
  cause : Option String := none
  event : Option String := none
  deriving DecidableEq, Inhabited

namespace ErrorRecord

def display (e : ErrorRecord) : String := "Hibiki Error | " ++ e.message

/-- The error and its call stack, each on lines of its own. -/
def report (e : ErrorRecord) : String :=
  let context := e.stack.render "> "
  e.display ++ "\n" ++ (if context.isEmpty then "" else context ++ "\n")

end ErrorRecord

/-- A way to read and write a place: a path in a scope, followed anew each time; a static path into the value of
a cell; or another handle, whose writes are dropped. -/
inductive Handle where
  | bound (path : Path) (scope : Option ScopeId)
  | rooted (cell : CellId) (path : Path)
  | readOnly (of_ : HandleId)

instance : Inhabited Handle := ⟨.readOnly 0⟩

/-- A subscription to the changes of a cell. -/
structure Subscription where
  token : Nat
  label : String
  deriving DecidableEq, Inhabited

/-- A value that can be replaced, and who is told. -/
structure Cell where
  value : Value
  subscribers : List Subscription := []
  deriving Inhabited

/-- A host object: its class, its literal text, the text it has in a sentence if that is another, and the handler
address it is, if it is one. -/
structure Foreign where
  typeName : String
  text : String
  plain : Option String := none
  path : Option HandlerPath := none
  deriving Inhabited

structure Store where
  arrays : Array (Array Value) := #[]
  objects : Array (Entries Value) := #[]
  blobs : Array Blob := #[]
  lambdas : Array Lambda := #[]
  nodeLists : Array (List Node) := #[]
  errors : Array ErrorRecord := #[]
  handles : Array Handle := #[]
  cells : Array Cell := #[]
  /-- The scope that each context view looks out from. -/
  views : Array ScopeId := #[]
  foreigns : Array Foreign := #[]
  deriving Inhabited

namespace Store

def array (s : Store) (a : ArrayId) : Array Value := s.arrays.getD a #[]

def object (s : Store) (o : ObjectId) : Entries Value := s.objects.getD o []

def blob (s : Store) (b : BlobId) : Blob := s.blobs.getD b default

def lambda (s : Store) (l : LambdaId) : Lambda := s.lambdas.getD l default

def nodeList (s : Store) (n : NodeListId) : List Node := s.nodeLists.getD n []

def error (s : Store) (e : ErrorId) : ErrorRecord := s.errors.getD e default

def handle (s : Store) (h : HandleId) : Handle := s.handles.getD h default

def cell (s : Store) (c : CellId) : Cell := s.cells.getD c default

def view (s : Store) (v : ViewId) : ScopeId := s.views.getD v 0

def foreign (s : Store) (f : ForeignId) : Foreign := s.foreigns.getD f default

def newArray (s : Store) (xs : Array Value) : ArrayId × Store :=
  (s.arrays.size, { s with arrays := s.arrays.push xs })

def newObject (s : Store) (es : Entries Value) : ObjectId × Store :=
  (s.objects.size, { s with objects := s.objects.push es })

def newBlob (s : Store) (b : Blob) : BlobId × Store :=
  (s.blobs.size, { s with blobs := s.blobs.push b })

def newLambda (s : Store) (l : Lambda) : LambdaId × Store :=
  (s.lambdas.size, { s with lambdas := s.lambdas.push l })

def newNodeList (s : Store) (ns : List Node) : NodeListId × Store :=
  (s.nodeLists.size, { s with nodeLists := s.nodeLists.push ns })

def newError (s : Store) (e : ErrorRecord) : ErrorId × Store :=
  (s.errors.size, { s with errors := s.errors.push e })

def newHandle (s : Store) (h : Handle) : HandleId × Store :=
  (s.handles.size, { s with handles := s.handles.push h })

def newCell (s : Store) (c : Cell) : CellId × Store :=
  (s.cells.size, { s with cells := s.cells.push c })

def newView (s : Store) (scope : ScopeId) : ViewId × Store :=
  (s.views.size, { s with views := s.views.push scope })

def newForeign (s : Store) (f : Foreign) : ForeignId × Store :=
  (s.foreigns.size, { s with foreigns := s.foreigns.push f })

def setArray (s : Store) (a : ArrayId) (xs : Array Value) : Store :=
  { s with arrays := s.arrays.setIfInBounds a xs }

def setObject (s : Store) (o : ObjectId) (es : Entries Value) : Store :=
  { s with objects := s.objects.setIfInBounds o es }

def setBlob (s : Store) (b : BlobId) (x : Blob) : Store :=
  { s with blobs := s.blobs.setIfInBounds b x }

def setError (s : Store) (e : ErrorId) (x : ErrorRecord) : Store :=
  { s with errors := s.errors.setIfInBounds e x }

def setHandle (s : Store) (h : HandleId) (x : Handle) : Store :=
  { s with handles := s.handles.setIfInBounds h x }

def setLambda (s : Store) (l : LambdaId) (x : Lambda) : Store :=
  { s with lambdas := s.lambdas.setIfInBounds l x }

def setCell (s : Store) (c : CellId) (x : Cell) : Store :=
  { s with cells := s.cells.setIfInBounds c x }

/-- Whether a handle drops what is written to it. -/
def isReadOnly (s : Store) (h : HandleId) : Bool :=
  match s.handle h with
  | .readOnly _ => true
  | _ => false

end Store

/-! ### Node lists and their views -/

/-- The nodes grouped by a key, groups and nodes in the order of the list; a node without the key is in none. -/
def groupNodes (key : Node → Option String) (ns : List Node) : List (String × List Node) :=
  ns.foldl (fun groups n =>
    match key n with
    | none => groups
    | some k =>
      if groups.any (·.1 == k) then
        groups.map fun g => if g.1 == k then (g.1, g.2 ++ [n]) else g
      else groups ++ [(k, [n])]) []

end EventScript
