import EventScript.Value

/-!
# Scripts: paths, expressions, actions and handler blocks

A path leads from a root to a place in the data: by keys and indices, by keys computed when it is used, or from
a path that a text spells. Expressions are evaluated in a scope; actions are run, in blocks, for their effects.
-/

namespace EventScript

/-- The places where a path can begin. `data` is another name of `global`, and `c` of `component`. -/
inductive RootKey where
  | global
  | data
  | state
  | local
  | context
  | currentContext
  | component
  | c
  | args
  /-- A value given with the path itself. -/
  | expr
  | null
  deriving DecidableEq, Repr, Inhabited

def RootKey.name : RootKey → String
  | .global => "global"
  | .data => "data"
  | .state => "state"
  | .local => "local"
  | .context => "context"
  | .currentContext => "currentcontext"
  | .component => "component"
  | .c => "c"
  | .args => "args"
  | .expr => "expr"
  | .null => "null"

def RootKey.all : List RootKey :=
  [.global, .data, .state, .local, .context, .currentContext, .component, .c, .args, .expr, .null]

def RootKey.ofName? (s : String) : Option RootKey := RootKey.all.find? (·.name == s)

/-- A root, the number of carets on it, and the value of an `expr` root. -/
structure Root where
  key : RootKey
  caret : Nat := 0
  value : Value := .null
  deriving DecidableEq, Inhabited

/-- What a write does with the old and the new value. -/
inductive WriteOp where
  | set
  | setRaw
  | setUnless
  | append
  | appendArray
  | blobExtend
  deriving DecidableEq, Repr, Inhabited

def WriteOp.name : WriteOp → String
  | .set => "set"
  | .setRaw => "set-raw"
  | .setUnless => "set-unless"
  | .append => "append"
  | .appendArray => "append-array"
  | .blobExtend => "blob-extend"

def WriteOp.all : List WriteOp := [.set, .setRaw, .setUnless, .append, .appendArray, .blobExtend]

/-- The short spellings. -/
def WriteOp.shortName : WriteOp → String
  | .set => "set"
  | .setRaw => "setraw"
  | .setUnless => "setunless"
  | .append => "append"
  | .appendArray => "appendarr"
  | .blobExtend => "blobext"

/-- The operation a name stands for, in either spelling; no name at all is `set`. -/
def WriteOp.ofName? (s : String) : Option WriteOp :=
  if s.isEmpty then some .set else WriteOp.all.find? fun op => op.name == s || op.shortName == s

/-- The operators. -/
inductive Operator where
  | and
  | or
  | coalesce
  | add
  | sub
  | mul
  | div
  | mod
  | less
  | lessEq
  | greater
  | greaterEq
  | equal
  | notEqual
  | not
  | choose
  deriving DecidableEq, Repr

def Operator.symbol : Operator → String
  | .and => "&&"
  | .or => "||"
  | .coalesce => "??"
  | .add => "+"
  | .sub => "-"
  | .mul => "*"
  | .div => "/"
  | .mod => "%"
  | .less => "<"
  | .lessEq => "<="
  | .greater => ">"
  | .greaterEq => ">="
  | .equal => "=="
  | .notEqual => "!="
  | .not => "!"
  | .choose => "?:"

def Operator.all : List Operator :=
  [.and, .or, .coalesce, .add, .sub, .mul, .div, .mod, .less, .lessEq, .greater, .greaterEq, .equal,
    .notEqual, .not, .choose]

def Operator.ofSymbol? (s : String) : Option Operator := Operator.all.find? (·.symbol == s)

mutual

/-- A part of a path. -/
inductive Part where
  | root (r : Root)
  | key (k : String)
  | index (i : Int)
  /-- A key or an index, computed when the path is used. -/
  | dyn (e : Expr)
  /-- A path, read from a computed text. -/
  | deref (e : Expr)

/-- How a path begins. -/
inductive Head where
  | root (r : Root)
  | deref (e : Expr)

inductive Path where
  | mk (head : Head) (rest : List Part)

inductive Expr where
  | literal (v : Value)
  | path (p : Path)
  | array (items : List Expr)
  | object (entries : List (Expr × Expr))
  | range (first last : Expr)
  | op (o : Operator) (operands : List Expr)
  | call (name : String) (args : List Expr)
  | format (e : Expr) (args : Option Expr)
  | ref (p : Path)
  | isRef (e : Expr)
  | refInfo (e : Expr)
  | invoke (e : Expr) (params : Option Expr)
  | lambda (body : Expr)
  /-- Something of the host that is no expression: its class and its text. -/
  | foreign (typeName text : String)

end

instance : Inhabited Expr := ⟨.literal .null⟩
instance : Inhabited Path := ⟨.mk (.root { key := .null }) []⟩

namespace Path

def head : Path → Head
  | .mk h _ => h

def rest : Path → List Part
  | .mk _ ps => ps

/-- All parts of a path, the root first. -/
def parts : Path → List Part
  | .mk (.root r) ps => .root r :: ps
  | .mk (.deref e) ps => .deref e :: ps

def length (p : Path) : Nat := p.rest.length + 1

/-- The root of a path that begins with one. -/
def root? : Path → Option Root
  | .mk (.root r) _ => some r
  | .mk (.deref _) _ => none

def rootKey? (p : Path) : Option RootKey := p.root?.map (·.key)

/-- The path with one more part. -/
def snoc : Path → Part → Path
  | .mk h ps, part => .mk h (ps ++ [part])

/-- The path that is a root alone. -/
def ofRoot (key : RootKey) : Path := .mk (.root { key }) []

end Path

/-- A part that needs no evaluation. -/
def Part.isStatic : Part → Bool
  | .dyn _ | .deref _ => false
  | _ => true

/-- A path whose parts need no evaluation. -/
def Path.isStatic (p : Path) : Bool := p.parts.all Part.isStatic

/-- Equality of parts that need no evaluation. -/
def Part.sameStatic : Part → Part → Bool
  | .root r, .root s => r == s
  | .key k, .key l => k == l
  | .index i, .index j => i == j
  | _, _ => false

/-- Equality of paths that need no evaluation. -/
def Path.sameStatic (p q : Path) : Bool :=
  p.length == q.length && (p.parts.zip q.parts).all fun ab => ab.1.sameStatic ab.2

inductive Action where
  | assign (target : Path) (op : WriteOp) (data : Expr)
  | cond (test : Expr) (thenBlock : List Action) (elseBlock : Option (List Action))
  | setReturn (data : Expr)
  /-- A call of a handler of the host, by one path expression, or by an address with its parts. -/
  | call (callee : Option Expr) (data : Option Expr) (target : Option Path) (op : WriteOp)
      (url method module : Option Expr) (pure : Bool)
  | invalidate (data : Option Expr)
  | fire (event : Expr) (data : Option Expr) (bubble : Bool) (target : Option Expr)
  | log (exprs : List Expr) (debug : Bool)
  | throw (data : Expr)
  | nop
  | markup (data : Expr)
  /-- An action of a kind that only the host knows: its class, its kind and its text. -/
  | foreign (typeName kind text : String)

namespace Action

/-- The word for an action in descriptions. -/
def kind : Action → String
  | .assign .. => "setdata"
  | .cond .. => "ifblock"
  | .setReturn _ => "setreturn"
  | .call .. => "callhandler"
  | .invalidate _ => "invalidate"
  | .fire .. => "fireevent"
  | .log .. => "log"
  | .throw _ => "throw"
  | .nop => "nop"
  | .markup _ => "html"
  | .foreign _ kind _ => kind

end Action

instance : Inhabited Action := ⟨.nop⟩

/-- What may stand where a handler block is expected. -/
inductive Block where
  /-- A compiled block of actions. -/
  | actions (as : List Action)
  /-- A plain list of actions. -/
  | list (as : List Action)
  /-- An object whose handler entry holds a block, if it holds anything. -/
  | handlerOf (b : Option Block)
  /-- An object whose action entry holds a list of actions. -/
  | actionsOf (as : List Action)
  | value (v : Value)

instance : Inhabited Block := ⟨.actions []⟩

/-- The address of a handler: a module, a path in it, and perhaps a method and a fragment. -/
structure HandlerPath where
  module : String
  path : String
  method : Option String := none
  fragment : Option String := none
  deriving DecidableEq, Repr, Inhabited

end EventScript
