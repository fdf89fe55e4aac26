import EventScript.Display

/-!
# Printing scripts

The surface text of values, expressions, actions and blocks. Arrays and objects are printed with everything in
them, so a value that holds itself has no text.
-/

namespace EventScript

/-- The depth at which printing gives up. -/
def printDepth : Nat := 330

namespace World

/-- The text of a key in braces. -/
def printKey (key : String) : String := if isBareKey key then key else Json.quote key

/-- The text of a value; each level of nesting takes one from `fuel`. -/
def printValueFrom (w : World) : (fuel : Nat) → Value → Except TooDeep String
  | 0, _ => .error .comparing
  | fuel + 1, v =>
    match v with
    | .str s => .ok (Json.quote s)
    | .array a => do
      let items ← (w.store.array a).toList.mapM (printValueFrom w fuel)
      return "[" ++ String.intercalate ", " items ++ "]"
    | .object _ | .context _ => do
      let items ← (w.entries v).mapM fun e => do
        return printKey e.1.text ++ ": " ++ (← printValueFrom w fuel e.2)
      return "\x7b" ++ String.intercalate ", " items ++ "\x7d"
    | .handle h =>
      let path := w.store.handlePath h
      .ok (if path.isEmpty then "[lvalue]" else "ref(" ++ path ++ ")")
    | .foreign f => .ok (w.store.foreign f).text
    | v => .ok (w.display v)

/-- The text of a value. -/
def printValue (w : World) (v : Value) : Except TooDeep String := w.printValueFrom printDepth v

/-- What stops the printing of a value first: a nesting that is too deep, or a number that is too long to be written. -/
def checkPrintedFrom (w : World) : (fuel : Nat) → Value → Except Fault Unit
  | 0, _ => .error (.tooDeep .comparing)
  | fuel + 1, v =>
    match v with
    | .array a => (w.store.array a).toList.forM (checkPrintedFrom w fuel)
    | .object _ | .context _ => (w.entries v).forM fun e => checkPrintedFrom w fuel e.2
    | .handle h => if (w.store.pathBehind h).any Path.isLong then .error (.digits .writing) else .ok ()
    | v => if v.isLong then .error (.digits .writing) else .ok ()

/-- The text of a value in which every number is short enough to be written. -/
def printShort (w : World) (v : Value) : Except Fault String := do
  w.checkPrintedFrom printDepth v
  (w.printValue v).mapError .tooDeep

/-- Whether an operator with operands needs parentheses inside another. -/
def needsParens : Expr → Bool
  | .op _ operands => 1 < operands.length
  | _ => false

def parenthesize (e : Expr) (s : String) : String := if needsParens e then "(" ++ s ++ ")" else s

/-- The text of an operator and its operands. -/
def operation (o : Operator) : List String → String
  | [a] => o.symbol ++ a
  | ops =>
    match o, ops with
    | .choose, [c, a, b] => c ++ " ? " ++ a ++ " : " ++ b
    | _, _ => String.intercalate (" " ++ o.symbol ++ " ") ops

mutual

/-- The text of an expression. -/
def printExpr (w : World) : Expr → Except TooDeep String
  | .literal v => w.printValue v
  | .path p => .ok p.text
  | .array items => do return "[" ++ String.intercalate ", " (← printExprs w items) ++ "]"
  | .object entries => do
    return "\x7b" ++ String.intercalate ", " (← printEntries w entries) ++ "\x7d"
  | .range first last => do
    return "[" ++ (← printExpr w first) ++ " .. " ++ (← printExpr w last) ++ "]"
  | .op o operands => do return operation o (← printOperands w operands)
  | .call name args => do
    return "fn:" ++ name ++ "(" ++ String.intercalate ", " (← printExprs w args) ++ ")"
  | .format e args => do
    let inner := parenthesize e (← printExpr w e)
    match args with
    | none => return inner ++ " | format"
    | some a => return inner ++ " | format(" ++ (← printExpr w a) ++ ")"
  | .ref p => .ok ("ref(" ++ p.text ++ ")")
  | .isRef e => do return "isref(" ++ (← printExpr w e) ++ ")"
  | .refInfo e => do return "refinfo(" ++ (← printExpr w e) ++ ")"
  | .invoke e params => do
    let callee ← printExpr w e
    match params with
    | none => return "invoke(" ++ callee ++ ")"
    | some p => return "invoke(" ++ callee ++ ", " ++ (← printExpr w p) ++ ")"
  | .lambda body => do return "lambda(" ++ (← printExpr w body) ++ ")"
  | .foreign _ text => .ok text

def printExprs (w : World) : List Expr → Except TooDeep (List String)
  | [] => .ok []
  | e :: rest => do
    let s ← printExpr w e
    return s :: (← printExprs w rest)

def printOperands (w : World) : List Expr → Except TooDeep (List String)
  | [] => .ok []
  | e :: rest => do
    let s ← printExpr w e
    return parenthesize e s :: (← printOperands w rest)

def printEntries (w : World) : List (Expr × Expr) → Except TooDeep (List String)
  | [] => .ok []
  | (k, v) :: rest => do
    let key ← match k with
      | .literal k => pure (printKey (w.plain k))
      | _ => do
        let s ← printExpr w k
        pure ("(" ++ s ++ ")")
    let value ← printExpr w v
    return (key ++ ": " ++ value) :: (← printEntries w rest)

end

/-- The text of an expression that may be missing, between two others. -/
def printOption (w : World) (before after : String) : Option Expr → Except TooDeep String
  | none => .ok ""
  | some e => do return before ++ (← printExpr w e) ++ after

/-- The target of a write: a path, after the operation unless that is `set`. -/
def targetText (p : Path) (op : WriteOp) : String :=
  if op == .set then p.text else op.name ++ ":" ++ p.text

/-- Lines of a block in braces. -/
def blockText (indent : String) (level : Nat) (lines : List String) : String :=
  if lines.isEmpty then "\x7b\x7d"
  else
    let pad (n : Nat) : String := String.join (List.replicate n indent)
    "\x7b\n" ++ String.intercalate "\n" (lines.map (pad (level + 1) ++ ·)) ++ "\n" ++ pad level ++ "\x7d"

mutual

/-- The text of an action whose block stands at `level`. -/
def printAction (w : World) (indent : String) (level : Nat) : Action → Except TooDeep String
  | .assign target op data => do return targetText target op ++ " = " ++ (← w.printExpr data)
  | .cond test thenBlock elseBlock => do
    let head := "if (" ++ (← w.printExpr test) ++ ") "
    let body := blockText indent level (← printActions w indent (level + 1) thenBlock)
    match elseBlock with
    | none => return head ++ body
    | some as =>
      return head ++ body ++ " else "
        ++ blockText indent level (← printActions w indent (level + 1) as)
  | .setReturn data => do return "return " ++ (← w.printExpr data)
  | .call callee data target op url method module pure => do
    let call ← match callee with
      | some c => w.printExpr c
      | none => do
        let address ← w.printOption "" "" url
        let method ← w.printOption "" " " method
        let module ← w.printOption " module=" "" module
        Except.ok (method ++ address ++ module)
    let data ← w.printOption ", " "" data
    let text := (if pure then "pure " else "") ++ "callhandler(" ++ call ++ data ++ ")"
    match target with
    | some p => return targetText p op ++ " = " ++ text
    | none => return text
  | .invalidate data => do return "invalidate(" ++ (← w.printOption "" "" data) ++ ")"
  | .fire event data bubble target => do
    let name ← match event with
      | .literal v => Except.ok (w.plain v)
      | e => do
        let text ← w.printExpr e
        Except.ok ("(" ++ text ++ ")")
    let target ← w.printOption "[" "]" target
    let data ← w.printOption "" "" data
    return (if bubble then "bubble" else "fire") ++ "->" ++ name ++ target ++ "(" ++ data ++ ")"
  | .log exprs debug => do
    return (if debug then "debug" else "log") ++ "("
      ++ String.intercalate ", " (← w.printExprs exprs) ++ ")"
  | .throw data => do return "throw(" ++ (← w.printExpr data) ++ ")"
  | .nop => .ok "nop"
  | .markup data => do return "html(" ++ (← w.printExpr data) ++ ")"
  | .foreign _ _ text => .ok text

def printActions (w : World) (indent : String) (level : Nat) : List Action → Except TooDeep (List String)
  | [] => .ok []
  | a :: rest => do
    let s ← printAction w indent level a
    return s :: (← printActions w indent level rest)

end

/-- A list of actions in brackets. -/
def printList (w : World) (indent : String) (level : Nat) (actions : List Action) :
    Except TooDeep String := do
  return "[" ++ String.intercalate ", " (← w.printActions indent level actions) ++ "]"

/-- The text of what stands where a block is expected. -/
def printBlock (w : World) (indent : String) (level : Nat) : Block → Except TooDeep String
  | .actions as => do return blockText indent level (← w.printActions indent (level + 1) as)
  | .list as => w.printList indent level as
  | .handlerOf none => .ok "\x7bhibikihandler: null\x7d"
  | .handlerOf (some b) => do
    return "\x7bhibikihandler: " ++ (← printBlock w indent level b) ++ "\x7d"
  | .actionsOf as => do
    return "\x7bhibikiactions: " ++ (← w.printList indent level as) ++ "\x7d"
  | .value v => w.printValue v

/-- An action in one line, as the call stack describes it. One that is too deep to print is noticed on the way
in. The numbers and indices in a script are taken to be short enough to be written. -/
def describe (w : World) (a : Action) : Except Fault String := do
  match w.printAction "  " 0 a with
  | .error _ => throw (.tooDeep .calling)
  | .ok text =>
    match Text.firstLine? text with
    | none => throw .missingOperand
    | some line => return a.kind ++ " action [" ++ line ++ "]"

end World

end EventScript
