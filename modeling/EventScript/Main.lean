import EventScript.Console

/-!
# The console program

Reads commands from the standard input and shows what they give. Failures go to the standard error.
-/

namespace EventScript

/-- The settings that the program looks up. -/
def settingNames : List String :=
  ["HIBIKI_MAX_ACTIONS", "HIBIKI_MAX_STACK", "HIBIKI_MAX_ARRAY_SIZE", "HIBIKI_DEBUG"]

/-- What stands before each line that is typed. -/
def prompt : String := ">> "

/-- Shows what the console writes. -/
def showWritten (w : Console.Written) : IO Unit := do
  if !w.out.isEmpty then
    let out ← IO.getStdout
    out.putStr w.out
    out.flush
  if !w.err.isEmpty then
    let err ← IO.getStderr
    err.putStr w.err
    err.flush

/-- Tells a failure that ends the program. -/
def abandon (f : Fault) : IO UInt32 := do
  showWritten { err := f.report ++ "\n" }
  return 1

/-- Handles lines until one ends the session. -/
partial def converse (g : Engine) (w : World) : IO UInt32 := do
  showWritten { out := prompt }
  let line ← (← IO.getStdin).getLine
  match (Console.handleLine g line).run w with
  | .ok (written, more) w =>
    showWritten written
    if more then converse g w else return 0
  | .error f _ => abandon f

/-- The text of a file with its line ends made line feeds; none if there is no such file. -/
def readText? (path : String) : IO (Option String) := do
  try
    let text ← IO.FS.readFile path
    return some ((text.replace "\r\n" "\n").replace "\r" "\n")
  catch _ => return none

def run (args : List String) : IO UInt32 := do
  let found ← settingNames.filterMapM fun name => do
    return (← IO.getEnv name).map fun text => (name, text)
  let setting (name : String) : Option String := List.lookup name found
  let text ← match args with
    | path :: _ => readText? path
    | [] => pure none
  let start : World := { debug := debugSetting setting }
  match (Console.startSession args (fun _ => text) (Limits.ofSettings setting)).run start with
  | .ok (.ok ()) w =>
    showWritten { out := Console.banner }
    converse (Engine.full Embedding.plain) w
  | .ok (.error told) _ =>
    showWritten told
    return 1
  | .error f _ => abandon f

end EventScript

def main (args : List String) : IO UInt32 := EventScript.run args
