import EventScript.Path.Reader

/-!
# Checked construction

Roots, paths, operators, filters and actions from parts that may not fit, each refused with its cause.
-/

namespace EventScript

/-- A root by its name and number of carets. -/
def Root.make (name : String) (caret : Int) (v : Value) : Except Malformed Root :=
  match RootKey.ofName? name with
  | none => .error (.rootKey name)
  | some key =>
    if caret < 0 then .error .negativeCaret else .ok { key, caret := caret.toNat, value := v }

/-- A path from its parts; the first must be a root, or a path that a text spells. -/
def Path.ofParts : List Part → Except Malformed Path
  | [] => .error .emptyPath
  | .root r :: rest => .ok (.mk (.root r) rest)
  | .deref e :: rest => .ok (.mk (.deref e) rest)
  | _ => .error .noRoot

/-- An operator by its symbol. -/
def Expr.makeOp (symbol : String) (operands : List Expr) : Except Malformed Expr :=
  match Operator.ofSymbol? symbol with
  | none => .error (.operator symbol)
  | some o =>
    if o == .choose && operands.length != 3 then .error .chooseOperands else .ok (.op o operands)

/-- A filter by its name. -/
def Expr.makeFilter (name : String) (e : Expr) (args : Option Expr) : Except Malformed Expr :=
  if name == "format" then .ok (.format e args) else .error (.filter name)

/-- What stands in the place of an expression that is missing. -/
def Expr.missing : Expr := .foreign "NoneType" "null"

/-- The target of a write as it is given: a text that may name the operation, or a path. -/
inductive TargetSource where
  | text (s : String)
  | path (p : Path)

/-- The target of a write and its operation. The operation that is given on its own wins. -/
def TargetSource.read (op : Option String) : TargetSource → Except Malformed (Path × WriteOp)
  | .path p => do return (p, ← WriteOp.read (op.getD ""))
  | .text s => do
    let (named, p) ← Path.readTarget s
    match op with
    | some op => return (p, ← WriteOp.read op)
    | none => return (p, named)

/-- An assignment. -/
def Action.makeAssign (target : TargetSource) (op : Option String) (data : Expr) :
    Except Malformed Action := do
  let (p, op) ← target.read op
  return .assign p op data

/-- A call of a handler, by one expression or by an address. -/
def Action.makeCall (callee data : Option Expr) (target : Option TargetSource) (op : Option String)
    (url method module : Option Expr) (pure : Bool) : Except Malformed Action :=
  if callee.isNone && url.isNone then .error .callTarget
  else match target with
    | none => do return .call callee data none (← WriteOp.read (op.getD "")) url method module pure
    | some t => do
      let (p, op) ← t.read op
      return .call callee data (some p) op url method module pure

end EventScript
