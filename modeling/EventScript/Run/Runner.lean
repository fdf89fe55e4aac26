import EventScript.Printer
import EventScript.Run.Block

/-!
# Running actions

A block runs its actions one after the other; an action may run another block, call a handler of the host, or fire
an event, whose handler is a block again. Every action is counted, so the budget of actions bounds how deep blocks
can run inside each other. A failure inside the handler of an event is fired as an error event, once, or handed to
the host.
-/

namespace EventScript

namespace Run

/-- How a list of actions is run: in a scope, perhaps without effects on shared data, under a word for its kind.
The value is the last one returned. -/
abbrev RunItems := List BlockItem → ScopeId → Bool → String → Job Value

/-- Runs a block. -/
def runBlock (run : RunItems) (b : Block) (scope : ScopeId) (pure : Bool) (kind : String) : Job Value := do
  run (← Job.exec (BlockItem.ofBlock b)) scope pure kind

/-- Fails because a ceiling is exceeded. -/
def exceed {α : Type} (cause : Ceiling) : Job α := do
  Job.note (.exceeded cause)
  Job.fail (.ceiling cause none)

/-! ### Data for handlers -/

/-- The entries of a value that is handed to a handler: those of an object, none for null, else the value under a
name. -/
def dataEntries (w : World) (v : Value) : Entries Value :=
  match v with
  | .null | .absent => []
  | .object _ | .context _ => w.entries v
  | v => [(.str "value", v)]

/-- Splits entries into plain ones and those about the event, whose keys begin with an at sign, which is dropped. -/
def splitAbout (es : Entries Value) : Entries Value × Entries Value :=
  es.foldl (fun acc e =>
    match e.1 with
    | .str s =>
      match s.toList with
      | '@' :: name => (acc.1, Entries.insert (.str (String.ofList name)) e.2 acc.2)
      | _ => (Entries.insert e.1 e.2 acc.1, acc.2)
    | k => (Entries.insert k e.2 acc.1, acc.2)) ([], [])

/-! ### Events -/

/-- The scope where an event starts: that of its target, if it has one. -/
def startScope (event : Event) (scope : ScopeId) : Exec (Option ScopeId) :=
  match event.target with
  | some id => Exec.nodeScope id
  | none => return some scope

/-- Notes the call stack on a ceiling that is exceeded, unless one is noted. -/
def noteStack (stack : CallStack) : Fault → Fault
  | .ceiling cause none => .ceiling cause (some stack)
  | f => f

/-- Whether a failure is a ceiling that is exceeded; these end the whole run. -/
def isCeiling : Fault → Bool
  | .ceiling .. => true
  | _ => false

/-- Runs the handler of an event that started in a scope. What fails inside goes to `recover`, with the stack as it
was before. -/
def runHandlerOf (run : RunItems) (event : Event) (block : Block) (start owner : ScopeId) (pure : Bool)
    (recover : ErrorId → Job Unit) : Job Value := do
  Job.note (.handled event start owner)
  let html := "event" ++ (if event.bubble then "-bubble" else "") ++ "(" ++ event.name ++ ")"
  let scope ← Job.exec (Exec.childScope owner event.data html false)
  let mark := (← Job.callStack).depth
  let place := (← Job.world).fullHtml owner
  Job.changeStack (·.push
    { desc := "Running " ++ event.name ++ " handler (in [[" ++ place ++ "]])"
      handler := some event.name, scope := some owner })
  match ← (runBlock run block scope pure "handler").attempt with
  | .ok v =>
    Job.changeStack (·.revert mark)
    return v
  | .error f =>
    let stack ← Job.callStack
    if isCeiling f then
      Job.changeStack (·.revert mark)
      Job.failOn (noteStack stack f)
    else
      let err ← Job.exec (Exec.errorOf f stack (some event.name))
      let message := ((← Job.world).store.error err).message
      Job.exec (Exec.debugLine ["EVENT error", event.name, message])
      Job.changeStack (·.revert mark)
      Job.note (.failed event start err)
      match ← (recover err).attempt with
      | .ok _ =>
        Job.changeStack (·.revert mark)
        return .null
      | .error f =>
        Job.changeStack (·.revert mark)
        Job.failOn f

/-- Hands an event to the nearest handler. `recover` is told the scope where the event started. -/
def dispatch (run : RunItems) (recover : ScopeId → ErrorId → Job Unit) (event : Event) (scope : ScopeId)
    (pure : Bool) : Job Value := do
  let start ← Job.exec (startScope event scope)
  let w ← Job.world
  let stack ← Job.callStack
  match start.bind fun s => (w.findHandler s event.name stack event.bubble).map (s, ·) with
  | none =>
    if event.bubble then Job.exec (Exec.unhandledEvent event)
    return .null
  | some (s, block, owner) => runHandlerOf run event block s owner pure (recover s)

/-- Hands an error to the host. -/
def escalate (_ : ScopeId) (err : ErrorId) : Job Unit := do
  Job.note (.escalated err)
  Job.deliver err
  Job.exec (Exec.unhandledError err)

/-- The event by which the failure of an event is told to scripts. -/
def errorEvent (failed : Event) (err : ErrorId) : Event :=
  { name := "error", bubble := true
    data := [(.str "error", .error err), (.str "event", .str failed.name)] }

/-- Fires an error as an event where the failed event started, or hands it to the host if no handler is there or
the call stack is too deep. -/
def fireError (run : RunItems) (failed : Event) (pure : Bool) (scope : ScopeId) (err : ErrorId) :
    Job Unit := do
  let stack ← Job.callStack
  let w ← Job.world
  if failed.name == "error" || w.limits.errorStack < stack.depth
      || (w.findHandler scope "error" stack true).isNone then
    escalate scope err
  else
    Job.deliver err
    Job.changeStack (·.pushError (w.store.error err).message)
    let _ ← dispatch run escalate (errorEvent failed err) scope pure

/-- Fires an event. -/
def fireEvent (run : RunItems) (event : Event) (scope : ScopeId) (pure : Bool) : Job Value :=
  dispatch run (fireError run event pure) event scope pure

/-! ### Actions -/

/-- Writes the value of an assignment. Without effects on shared data only the context can be written. -/
def assign (g : Engine) (target : Path) (op : WriteOp) (v : Value) (scope : ScopeId) (pure : Bool) :
    Job Unit := do
  let p ← Job.exec (g.concretePath target (some scope))
  if pure && !(p.rootKey?.any RootKey.isContext) then Job.exec (Path.failWith p .pureTarget)
  Job.note (.assigned (← Job.world) scope p op v)
  Job.exec (g.writePath p scope v op true)

/-- The value of an expression that may be missing. -/
def evalOption (eval : Expr → Exec Value) : Option Expr → Exec Value
  | none => return .null
  | some e => eval e

/-- The address that a call action computes. -/
def callAddress (g : Engine) (callee url method module : Option Expr) (scope : ScopeId) :
    Exec HandlerPath := do
  let value := evalOption fun e => g.evalResolved e (some scope)
  match callee with
  | some c =>
    let v ← g.evalResolved c (some scope)
    let parse := do Exec.ofExcept .unresolved (HandlerPath.read (← displayOf v))
    match v with
    | .foreign f =>
      match ((← Exec.store).foreign f).path with
      | some p => return p
      | none => parse
    | _ => parse
  | none =>
    let url ← displayOf (← value url)
    let method ← value method
    let module ← value module
    let w ← get
    let module ← if w.isFilled module then displayOf module else pure "http"
    let method ← if w.isFilled method then do pure (some (Text.upper (← displayOf method))) else pure none
    return { module, path := url, method }

/-- Writes the result of a call, if the call says where to. -/
def storeResult (g : Engine) (target : Option (Path × WriteOp)) (v : Value) (scope : ScopeId) (pure : Bool) :
    Job Unit :=
  match target with
  | some (p, op) => assign g p op v scope pure
  | none => return ()

/-- Calls a handler of the host and runs the block it may answer with. -/
def callHandler (host : Host) (g : Engine) (run : RunItems) (address : Exec HandlerPath)
    (data : Option Expr) (target : Option (Path × WriteOp)) (scope : ScopeId) (pure : Bool) :
    Job Unit := do
  let path ← Job.exec address
  let object ← Job.exec do
    let v ← evalOption (fun e => g.eval e (some scope)) data
    let v ← deepCopy g.access.read false v
    Exec.allocate (·.newObject (dataEntries (← get) v))
  Job.changeStack (·.replace ("Calling handler " ++ path.full))
  Job.pass (.called path)
  let w ← Job.world
  let reply ← host.call
    { path, data := object, pure, library := w.library? scope, stack := ← Job.callStack, scope }
  let v ← match ← Job.exec (BlockItem.ofReply reply) with
    | .error v => Pure.pure v
    | .ok items => do
      let entries := (← Job.world).store.object object
      let inner ← Job.exec
        (Exec.childScope scope entries ("handler(" ++ path.full ++ ")") true)
      run items inner pure "handler"
  storeResult g target v scope pure

/-- Tells the host what is out of date. -/
def invalidate (g : Engine) (data : Option Expr) (scope : ScopeId) : Exec Unit := do
  let v ← evalOption (fun e => g.evalResolved e (some scope)) data
  match v with
  | .null => Exec.invalidate none
  | .array a =>
    for item in ((← Exec.store).array a).toList do
      if item != .null then Exec.invalidate (some (← displayOf item))
  | v => Exec.invalidate (some (← displayOf v))

/-- The event that a fire action computes; an empty name fires none. -/
def eventOf (g : Engine) (name : Expr) (data : Option Expr) (bubble : Bool) (target : Option Expr)
    (scope : ScopeId) : Exec (Option Event) := do
  let name ← g.evalResolved name (some scope)
  if name == .null || name == .str "" then return none
  let data ← evalOption (fun e => g.eval e (some scope)) data
  let (data, about) := splitAbout (dataEntries (← get) data)
  let target ← evalOption (fun e => g.evalResolved e (some scope)) target
  let name ← displayOf name
  let target ← if target == .null then pure none else do pure (some (← displayOf target))
  return some { name, data, bubble, about, target }

/-- A value in a log line. -/
def logText (w : World) (v : Value) : Except Fault String :=
  match v with
  | .str s => .ok s
  | .error e => .ok (Text.dropTrailingNewlines (w.store.error e).report)
  | v => w.printShort v

/-- Logs values, and on demand where the run stands. -/
def logValues (g : Engine) (exprs : List Expr) (debug : Bool) (scope : ScopeId) : Job Unit := do
  let message ← Job.exec do
    let vs ← exprs.mapM fun e => g.evalResolved e (some scope)
    let w ← get
    return String.intercalate " " (← Exec.ofExcept id (vs.mapM (logText w)))
  Job.exec (Exec.log .info ("hibiki-log " ++ message))
  Job.addEffect "log" message
  if debug then
    let context := (← Job.callStack).render "  "
    let lines ← Job.exec do Exec.ofExcept id ((← get).scopeLines scope)
    let dump := Text.joinLines (["context:", context, "environment:"] ++ lines.map ("  " ++ ·))
    Job.exec (Exec.log .info ("hibiki-debug\n" ++ dump))
    Job.addEffect "debug" dump

/-- The error record that a value is, if it is one. -/
def knownError? (s : Store) : Value → Option (ErrorId × ErrorRecord)
  | .error e => s.errors[e]?.map fun err => (e, err)
  | _ => none

/-- The error that is thrown for a value, its message, and whether it was an error before: an error record with the call
stack up to here, or a new one with the text of the value. -/
def errorToThrow (v : Value) (stack : CallStack) : Exec (ErrorId × String × Bool) := do
  match knownError? (← Exec.store) v with
  | some (e, err) =>
    modify fun w =>
      { w with store := w.store.setError e { err with stack := stack.pushError err.message } }
    return (e, err.message, true)
  | none =>
    let message ← displayOf v
    let e ← Exec.newError { message, stack }
    return (e, message, false)

/-- Throws a value. -/
def throwValue (g : Engine) (data : Expr) (scope : ScopeId) : Job Unit := do
  let v ← Job.exec do g.through (← g.eval data (some scope))
  let (e, message, again) ← Job.exec (errorToThrow v (← Job.callStack))
  Job.failWith e message again

/-- Runs one action. Only a return action has a value. -/
def perform (host : Host) (g : Engine) (run : RunItems) (scope : ScopeId) (pure : Bool) (a : Action) :
    Job (Option Value) := do
  match a with
  | .assign target op data =>
    let v ← Job.exec (g.eval data (some scope))
    assign g target op v scope pure
    return none
  | .cond test thenBlock elseBlock =>
    let holds ← Job.exec do
      Exec.ofExcept .overflow (← g.evalResolved test (some scope)).toBool
    if holds then
      Job.changeStack (·.pushDesc "then clause")
      let _ ← run (thenBlock.map .action) scope pure "block"
    else
      match elseBlock with
      | some as =>
        Job.changeStack (·.pushDesc "else clause")
        let _ ← run (as.map .action) scope pure "block"
      | none => Pure.pure ()
    return none
  | .setReturn data => return some (← Job.exec (g.eval data (some scope)))
  | .call callee data target op url method module pureCall =>
    let address := callAddress g callee url method module scope
    callHandler host g run address data (target.map (·, op)) scope (pure || pureCall)
    return none
  | .invalidate data =>
    if !pure then Job.exec (invalidate g data scope)
    return none
  | .fire name data bubble target =>
    match ← Job.exec (eventOf g name data bubble target scope) with
    | some event =>
      let _ ← fireEvent run event scope pure
    | none => Pure.pure ()
    return none
  | .log exprs debug =>
    logValues g exprs debug scope
    return none
  | .throw data =>
    throwValue g data scope
    return none
  | .nop => return none
  | .markup data =>
    Job.exec do
      let v ← g.evalResolved data (some scope)
      Exec.installMarkup v
    return none
  | .foreign typeName _ _ => Job.fail (.malformed (.action typeName))

/-- Describes an item on the call stack and runs it. -/
def performItem (host : Host) (g : Engine) (run : RunItems) (scope : ScopeId) (pure : Bool) :
    BlockItem → Job (Option Value)
  | .stray v => do Job.fail (.attribute ((← Job.world).typeName v) "kind")
  | .action a => do
    let desc ← Job.exec do Exec.ofExcept id ((← get).describe a)
    Job.changeStack (·.pushDesc desc)
    perform host g run scope pure a

/-- Counts one action against the budget. -/
def countAction : Job Unit := do
  let limit := (← Job.world).limits.actions
  Job.changeStack (·.countAction)
  if limit < (← Job.callStack).actions then exceed (.actions limit)

/-- Runs items one after the other, each with the stack cut back to `mark` frames; gives the last value returned. -/
def sequence (one : BlockItem → Job (Option Value)) (mark : Nat) : (last : Value) → List BlockItem → Job Value
  | last, [] => return last
  | last, item :: rest => do
    Job.changeStack (·.revert mark)
    countAction
    Job.note (.performed item)
    let v ← one item
    sequence one mark (v.getD last) rest

/-- Runs a list of actions, given how one is run. -/
def runList (one : ScopeId → Bool → BlockItem → Job (Option Value)) : RunItems :=
  fun items scope pure kind => do
    let limit := (← Job.world).limits.stack
    let mark := (← Job.callStack).depth
    if limit < mark then exceed (.stack limit)
    Job.note (.entered mark items)
    let v ← sequence (one scope pure) mark .null items
    Job.note .left
    Job.changeStack (·.revert mark)
    Job.exec (Exec.debugLine ["BLOCK done", kind, "actions", toString items.length])
    return v

/-- Runs a list of actions while at most `budget` more are left. An action past the budget is refused when it is
counted, so nothing is left to run at the end of it. -/
def runItems (host : Host) (g : Engine) : (budget : Nat) → RunItems
  | 0 => runList fun _ _ _ => do exceed (.actions (← Job.world).limits.actions)
  | budget + 1 => runList (performItem host g (runItems host g budget))

end Run

end EventScript
