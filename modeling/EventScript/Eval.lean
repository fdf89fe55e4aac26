import EventScript.Builtins
import EventScript.Path.Write

/-!
# Evaluation

Expressions, paths, handles and function values need one another: a path computes its parts, a handle follows a
path, a function value evaluates its body. An engine is what they have of one another; engines are built in levels,
each on the one before, and a computation that runs through all levels is too deep.
-/

namespace EventScript

/-- What the host adds to the language: function values of its own, and functions that scripts call by name. -/
structure Embedding where
  native : String → Option ScopeId → Value → Exec Value
  function : String → List Value → Exec Value

/-- What evaluation needs of evaluation: expressions, with handles left as they are, and access through handles. -/
structure Engine where
  eval : Expr → Option ScopeId → Exec Value
  access : HandleAccess

/-- How a value is wanted: as it is, or what its handles lead to. -/
inductive Mode where
  | natural
  | resolve
  deriving DecidableEq, Repr

def Mode.ofName? : String → Option Mode
  | "natural" | "raw" => some .natural
  | "resolve" => some .resolve
  | _ => none

namespace Engine

/-- The engine in which everything is too deep. -/
def bottom : Engine where
  eval _ _ := throw (.tooDeep .calling)
  access :=
    { read := fun _ => throw (.tooDeep .calling)
      write := fun _ _ => throw (.tooDeep .calling) }

/-- What a value leads to under the limits of the world. -/
def through (g : Engine) (v : Value) : Exec Value := do
  follow g.access.read (← get).limits.handleDepth v

/-- Evaluates an expression and follows handles. -/
def evalResolved (g : Engine) (e : Expr) (scope : Option ScopeId) : Exec Value := do
  return (← g.through (← g.eval e scope)).orNull

/-- Whether a value counts as true. -/
def truth (g : Engine) (v : Value) : Exec Bool := do
  Exec.ofExcept .overflow (← g.through v).toBool

/-- Follows a path. -/
def resolvePath (g : Engine) (p : Path) (scope : Option ScopeId) : Exec Value := do
  Path.resolve g.evalResolved g.access.read (← get).limits p scope

/-- Makes a path concrete. -/
def concretePath (g : Engine) (p : Path) (scope : Option ScopeId) : Exec Path := do
  Path.concrete g.evalResolved (← get).limits scope p

/-- Writes through a path. -/
def writePath (g : Engine) (p : Path) (scope : ScopeId) (v : Value) (op : WriteOp)
    (allowContext : Bool) : Exec Unit := do
  Path.write g.evalResolved g.access (← get).limits p scope v op allowContext

/-! ### Handles -/

/-- Reads through a handle. -/
def readHandle (g : Engine) (h : HandleId) : Exec Value := do
  match (← Exec.store).handle h with
  | .bound path (some scope) => g.resolvePath path (some scope)
  | .bound _ none => throw (.attribute "NoneType" "get_evaluator")
  | .rooted cell path => do
    Path.followIn g.access.read {} path ((← Exec.store).cell cell).value
  | .readOnly inner => g.access.read inner

/-- Writes through a handle. -/
def writeHandle (g : Engine) (h : HandleId) (v : Value) : Exec Unit := do
  match (← Exec.store).handle h with
  | .bound path (some scope) => g.writePath path scope v .set false
  | .bound _ none => throw (.attribute "NoneType" "get_evaluator")
  | .rooted cell path => do
    let cur := ((← Exec.store).cell cell).value
    let updated ← Path.writeIn g.access {} path cur v
    if updated != cur || path.length == 1 then Exec.setCell cell updated
  | .readOnly _ => return ()

/-! ### Operators -/

/-- An operand by its place. -/
def operand (operands : List Expr) (i : Nat) : Exec Expr :=
  match operands[i]? with
  | some e => pure e
  | none => throw .missingOperand

/-- The value of an operand, handles followed. -/
def operandValue (g : Engine) (scope : Option ScopeId) (operands : List Expr) (i : Nat) :
    Exec Value := do
  g.evalResolved (← operand operands i) scope

/-- The last operand that was evaluated: operands are evaluated until one satisfies `stop`. -/
def firstWhere (g : Engine) (scope : Option ScopeId) (stop : Value → Exec Bool) :
    (last : Value) → List Expr → Exec Value
  | last, [] => return last
  | _, e :: rest => do
    let v ← g.eval e scope
    if ← stop v then return v else firstWhere g scope stop v rest

/-- Arithmetic that gives a mark to a NaN. -/
def arithmetic (f : Nat → Number → Number → Except Number.Overflow Number) (a b : Number) :
    Exec Value := do
  return .num (← Exec.ofExcept .overflow (f (← Exec.freshNan) a b))

/-- The sum or the joined texts of two values; null leaves the other as it is. -/
def plus (a b : Value) : Exec Value := do
  match a, b with
  | .null, b => return b
  | a, .null => return a
  | .str s, b => return .str (s ++ (← displayOf b))
  | a, .str t => return .str ((← displayOf a) ++ t)
  | a, b => arithmetic Number.add a.toNumber b.toNumber

/-- The sum of all operands from the left. -/
def sum (g : Engine) (scope : Option ScopeId) : (acc : Value) → List Expr → Exec Value
  | acc, [] => return acc
  | acc, e :: rest => do
    let v ← g.evalResolved e scope
    sum g scope (← plus acc v) rest

/-- Equality of the first two operands. -/
def equality (g : Engine) (scope : Option ScopeId) (operands : List Expr) : Exec Bool := do
  let a ← g.eval (← operand operands 0) scope
  let b ← g.eval (← operand operands 1) scope
  if a == b || strictEqual a b then return true
  let a ← g.through a
  let b ← g.through b
  Exec.ofExcept .digits (checkLoose a b)
  return looseEqual a b

/-- Whether an order is one that an operator asks for. -/
def ordered (o : Operator) (r : Ordering) : Bool :=
  match o with
  | .less => r == .lt
  | .lessEq => r != .gt
  | .greater => r == .gt
  | _ => r != .lt

/-- Compares two texts by their characters and anything else by numbers; no number has no order. -/
def comparison (o : Operator) (a b : Value) : Exec Bool := do
  match a, b with
  | .str s, .str t => return ordered o (compare s t)
  | _, _ =>
    let m ← Exec.numberOf a
    let n ← Exec.numberOf b
    Exec.ofExcept .overflow m.inRange
    if m.isNan then return false
    Exec.ofExcept .overflow n.inRange
    return (m.order? n).any (ordered o)

/-- Applies an operator to operands, of which it evaluates those that it needs. -/
def applyOperator (g : Engine) (scope : Option ScopeId) (o : Operator) (operands : List Expr) :
    Exec Value := do
  let value := g.operandValue scope operands
  let numbers : Exec (Number × Number) := do
    let a ← Exec.numberOf (← value 0)
    let b ← Exec.numberOf (← value 1)
    return (a, b)
  match o with
  | .and => g.firstWhere scope (fun v => do return !(← g.truth v)) .null operands
  | .or => g.firstWhere scope g.truth .null operands
  | .coalesce => g.firstWhere scope (fun v => do return !(← g.through v).isNull) .null operands
  | .not => return .bool !(← g.truth (← g.eval (← operand operands 0) scope))
  | .choose =>
    let test ← Exec.ofExcept .overflow (← value 0).toBool
    g.eval (← operand operands (if test then 1 else 2)) scope
  | .equal => return .bool (← g.equality scope operands)
  | .notEqual => return .bool !(← g.equality scope operands)
  | .add =>
    match operands with
    | [e] => return .num (← Exec.numberOf (← g.evalResolved e scope))
    | _ => g.sum scope .null operands
  | .sub =>
    match operands with
    | [e] =>
      let n ← Exec.numberOf (← g.evalResolved e scope)
      return .num (n.neg (← Exec.freshNan))
    | _ =>
      let (a, b) ← numbers
      arithmetic Number.sub a b
  | .mul =>
    let (a, b) ← numbers
    arithmetic Number.mul a b
  | .div =>
    let (a, b) ← numbers
    arithmetic Number.div a b
  | .mod =>
    let (a, b) ← numbers
    return .num (← Exec.ofExcept .overflow (a.mod b))
  | .less | .lessEq | .greater | .greaterEq =>
    let a ← value 0
    let b ← value 1
    return .bool (← comparison o a b)

/-- The whole numbers from one bound to the other. -/
def range (limits : Limits) (first last : Number) : Exec Value := do
  Exec.ofExcept .overflow first.inRange
  if !first.isNan then Exec.ofExcept .overflow last.inRange
  if first.isNan || last.isNan then return ← Exec.newArray #[]
  match first.truncate, last.truncate with
  | .ok s, .ok e =>
    if s > e then return ← Exec.newArray #[]
    if e - s + 1 > limits.arraySize then Exec.fail (.rangeSize limits.arraySize)
    Exec.newArray ((List.range (e - s + 1).toNat).map fun i : Nat => Value.int (s + i)).toArray
  | _, _ => Exec.fail .infiniteRange

/-! ### Functions -/

/-- Runs what a name leads to. A failure that is not of the language is reported with the name. -/
def callFunction (em : Embedding) (g : Engine) (name : String) (f : Function) (args : List Value) :
    Exec Value := do
  let args ←
    if f.shares then pure args
    else do
      let copies ← args.mapM (deepCopy g.access.read true)
      pure (copies.map Value.orNull)
  Exec.debugLine ["CALL", name, "argc", toString args.length]
  let run := match f.callee with
    | .builtin b => b.apply g.access.read args
    | .hosted h => em.function h args
  tryCatch run fun e =>
    if e.isOwn then throw e else Exec.fail (.functionFailed name e.report)

/-- The entries under which a function value sees what it is called with. -/
def paramEntries (params : Value) : Exec (Entries Value) := do
  match params with
  | .null | .absent => return []
  | .object _ | .context _ => return (← get).entries params
  | v => return [(.str "value", v)]

/-- Calls a function value. -/
def invoke (em : Embedding) (g : Engine) (l : LambdaId) (scope : Option ScopeId) (params : Value) :
    Exec Value := do
  match (← Exec.store).lambda l with
  | .native name =>
    tryCatch (em.native name scope params) fun e =>
      if e.isOwn then throw e else Exec.fail (.nativeFailed e.report)
  | .closure body own =>
    match own.or scope with
    | none => throw (.attribute "NoneType" "make_child_env")
    | some base =>
      let child ← Exec.childScope base (← paramEntries params) "lambda" false
      g.eval body (some child)

/-- The format that an argument of the filter asks for. -/
def formatOf (argument : Value) : Exec Value := do
  let w ← get
  match argument with
  | .object _ | .context _ =>
    match (w.valueAt? argument (.str "format")).getD .null with
    | .null =>
      match w.valueAt? argument (.str "*args") with
      | some (.array a) => return (w.store.array a).getD 0 .null
      | _ => return .null
    | f => return f
  | .str s => return .str s
  | _ => return .null

/-- The entries of an object literal, evaluated in order. -/
def objectEntries (g : Engine) (scope : Option ScopeId) :
    Entries Value → List (Expr × Expr) → Exec (Entries Value)
  | done, [] => return done
  | done, (k, e) :: rest => do
    let key ← displayOf (← g.evalResolved k scope)
    let v ← g.eval e scope
    objectEntries g scope (Entries.insert (.str key) v done) rest

/-- Evaluates an expression one level up. -/
def evalNode (em : Embedding) (g : Engine) (e : Expr) (scope : Option ScopeId) : Exec Value := do
  match e with
  | .literal v => return v
  | .path p => g.resolvePath p scope
  | .array items =>
    let limits := (← get).limits
    if items.length > limits.arraySize then Exec.fail (.arraySize limits.arraySize)
    Exec.newArray (← items.mapM fun e => g.eval e scope).toArray
  | .object entries => Exec.newObject (← g.objectEntries scope [] entries)
  | .range first last =>
    let s ← Exec.numberOf (← g.evalResolved first scope)
    let e ← Exec.numberOf (← g.evalResolved last scope)
    range (← get).limits s e
  | .op o operands => g.applyOperator scope o operands
  | .call name args =>
    match scope with
    | none => throw (.attribute "NoneType" "get_function")
    | some _ =>
      match (← get).function? name with
      | none => Exec.fail (.noFunction name)
      | some f => callFunction em g name f (← args.mapM fun e => g.eval e scope)
  | .format e args =>
    let v ← g.evalResolved e scope
    let format ← match args with
      | none => pure .null
      | some a => do formatOf (← g.evalResolved a scope)
    return .str (← formatValue g.access.read v format)
  | .ref p =>
    match p.rootKey? with
    | some .global | some .data | some .component | some .c => Exec.newHandle (.bound p scope)
    | _ => Path.failWith p .refRoot
  | .isRef e =>
    match ← g.eval e scope with
    | .handle _ => return .bool true
    | _ => return .bool false
  | .refInfo e =>
    match ← g.eval e scope with
    | .handle h =>
      let s ← Exec.store
      Exec.checkWritten ((s.pathBehind h).any Path.isLong)
      return .str (s.handlePath h)
    | _ => return .null
  | .invoke e params =>
    match ← g.evalResolved e scope with
    | .lambda l =>
      let params ← match params with
        | none => pure .null
        | some p => g.eval p scope
      invoke em g l scope params
    | v => return v
  | .lambda body => Exec.newLambda (.closure body scope)
  | .foreign typeName _ => Exec.reject (.expression typeName)

/-- The engine one level above another. -/
def above (em : Embedding) (g : Engine) : Engine where
  eval := evalNode em g
  access := { read := g.readHandle, write := g.writeHandle }

/-- The engine with a number of levels. -/
def level (em : Embedding) : Nat → Engine
  | 0 => bottom
  | n + 1 => above em (level em n)

/-- How many levels there are. -/
def depth : Nat := 330

/-- The engine that evaluates for scripts. -/
def full (em : Embedding) : Engine := level em depth

/-- Evaluates an expression as a mode wants its value. -/
def evalIn (g : Engine) (mode : Mode) (e : Expr) (scope : Option ScopeId) : Exec Value :=
  match mode with
  | .natural => g.eval e scope
  | .resolve => g.evalResolved e scope

/-- Evaluates an expression as the name of a mode wants its value. -/
def evalNamed (g : Engine) (mode : String) (e : Expr) (scope : Option ScopeId) : Exec Value := do
  match Mode.ofName? mode with
  | some m => g.evalIn m e scope
  | none => do
    let _ ← g.eval e scope
    Exec.reject (.mode mode)

/-- The words that name the occasion of a computation in a log. -/
def occasion (ctx : Option String) : String :=
  match ctx with
  | some c => if c.isEmpty then "" else " [" ++ c ++ "]"
  | none => ""

/-- Runs a computation; a soft failure is logged and gives `otherwise`. -/
def orElse {α : Type} (what : String) (ctx : Option String) (otherwise : α) (x : Exec α) : Exec α :=
  tryCatch x fun e =>
    if e.isSoft then do
      Exec.log .warning (what ++ " failed" ++ occasion ctx ++ ": " ++ e.message)
      return otherwise
    else throw e

/-- Evaluates an expression; what cannot be resolved is null. -/
def evaluate (g : Engine) (mode : String) (e : Expr) (scope : Option ScopeId) (ctx : Option String) :
    Exec Value :=
  orElse "evaluation" ctx .null (g.evalNamed mode e scope)

end Engine

end EventScript
