import EventScript.Printer
import EventScript.Serialize
import EventScript.Start

/-!
# The console

Commands that read and write the shared data, one a line. What fails is told, and the console goes on.
-/

namespace EventScript

namespace Console

/-- A text before its first space and after it. -/
def splitWord (s : String) : String × String :=
  let (first, rest) := Text.cutAt ' ' s.toList
  (String.ofList first, String.ofList (rest.getD []))

/-- Follows a path of a command. -/
def readPlace (g : Engine) (scope : ScopeId) (text : String) : Exec Value := do
  let p ← Exec.ofExcept id (Path.parse text)
  g.resolvePath p (some scope)

/-- Carries out one command; the text to show, if there is one. -/
def runCommand (g : Engine) (line : String) : Exec (Option String) := do
  let (command, rest) := splitWord line
  let rest := Text.strip rest
  let scope ← Exec.rootScope
  match command with
  | "get" =>
    if rest.isEmpty then throw (.command "usage: get <path>")
    let v ← readPlace g scope rest
    return some (← Exec.ofExcept id ((← get).printShort v))
  | "set" =>
    let (target, raw) := splitWord rest
    if target.isEmpty then throw (.command "usage: set [op:]<path> <value>")
    let (op, path) ← Exec.ofExcept id (Path.parseTarget target)
    let v ← if (Text.strip raw).isEmpty then pure .null else deserialize .yaml raw
    g.writePath path scope v op false
    return none
  | "json" | "yaml" =>
    let v ← readPlace g scope (if rest.isEmpty then "$" else rest)
    let format := if command == "json" then .json else .yaml
    return some (Text.dropTrailingNewlines (← serialize g.access.read format true v))
  | _ =>
    throw (.command ("unknown command '" ++ command ++ "' (get, set, json, yaml, exit)"))

/-- Whether the console tells a failure and goes on. -/
def isTold (f : Fault) : Bool :=
  f.isOwn || ["YAMLError", "ValueError", "JSONDecodeError", "Error"].contains f.typeName

/-- What the console writes to its two outputs. -/
structure Written where
  out : String := ""
  err : String := ""
  deriving DecidableEq, Repr

/-- The text at the begin of a session. -/
def banner : String := "Hibiki REPL v0.1\nType 'exit' or press Ctrl+D to quit.\n"

/-- Handles one line with its line end; an empty one is the end of the input. The second part says whether to go
on. -/
def handleLine (g : Engine) (raw : String) : Exec (Written × Bool) := do
  if raw.isEmpty then return ({ out := "\nExiting.\n" }, false)
  let line := Text.strip raw
  if line.isEmpty then return ({}, true)
  if line == "exit" then return ({}, false)
  tryCatch
    (do
      match ← runCommand g line with
      | some text => return ({ out := text ++ "\n" }, true)
      | none => return ({}, true))
    fun f => if isTold f then return ({ err := "Error: " ++ f.message ++ "\n" }, true) else throw f

/-- Handles lines until one ends the session, and after the last one the end of the input: what is written to each, and
the fault that ends the session, if one does. -/
def converse (g : Engine) : List String → World → List Written × Option Fault
  | [], w =>
    match handleLine g "" w with
    | .ok (written, _) _ => ([written], none)
    | .error f _ => ([], some f)
  | line :: rest, w =>
    match handleLine g line w with
    | .ok (written, true) w =>
      let (parts, fault) := converse g rest w
      (written :: parts, fault)
    | .ok (written, false) _ => ([written], none)
    | .error f _ => ([], some f)

/-- The ending of a file name, with its dot; a name that begins or ends with its only dot has none. -/
def fileEnding (path : String) : String :=
  let name := (path.toList.reverse.takeWhile (· != '/')).reverse
  let ending := (name.reverse.takeWhile (· != '.')).reverse
  let before := name.length - ending.length
  if before ≤ 1 || ending.isEmpty then "" else String.ofList ('.' :: ending)

/-- Reads the data of a session; fails with what is told about the file. -/
def loadData (path : String) (text : Option String) : Exec (Except Written Value) := do
  match text with
  | none => return .error { err := "Error: file not found: " ++ path ++ "\n" }
  | some text =>
    let format := if Text.lower (fileEnding path) == ".json" then .json else .yaml
    tryCatch (do return .ok (← deserialize format text)) fun f =>
      if isTold f then
        return .error { err := "Error: cannot load " ++ path ++ ": " ++ f.message ++ "\n" }
      else throw f

/-- Starts a session: with the data of the file that the first argument names, unless it is an option. -/
def startSession (args : List String) (file : String → Option String) (limits : Except Fault Limits) :
    Exec (Except Written Unit) := do
  let data ← match args with
    | path :: _ => if path.startsWith "-" then pure (.ok .null) else loadData path (file path)
    | [] => pure (.ok .null)
  match data with
  | .error told => return .error told
  | .ok v =>
    let limits ← Exec.ofExcept id limits
    modify fun w => { w with limits }
    Exec.start v .null true
    return .ok ()

end Console

end EventScript
