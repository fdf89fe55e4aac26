import EventScript.Export
import EventScript.Text.Search

/-!
# Formatting values

A value in the form that a format asks for: its plain text, JSON, a mustache template, or a format string whose
arguments are the elements of an array or the value itself. A failure becomes part of the text.
-/

namespace EventScript

namespace World

/-- A value as an argument of a format string. -/
def printfArg (w : World) : Value → Printf.Arg
  | .null => .str "null"
  | .bool b => .bool b
  | .num n => .num n
  | .str s => .str s
  | v => .str (w.display v)

end World

/-- Whether a text has an opening delimiter of a template in it. -/
def isTemplate (s : String) : Bool := (Text.find? ['\x7b', '\x7b'] s.toList 0).isSome

/-- The data a template is filled with: an object, or one that holds the value. -/
def templateData : Datum → Datum
  | .object entries => .object entries
  | d => .object [(.str "value", d)]

/-- Formats a value, or fails. -/
def formatOrFail (read : HandleId → Exec Value) (v format : Value) : Exec String := do
  let text ← match format with
    | .null => pure ""
    | .str s => pure s
    | f => displayOf f
  if text == "" then displayOf v
  else if text == "json" then toJson read true true v
  else if text == "json-compact" then toJson read false true v
  else if isTemplate text then
    let d ← toDatum read true v
    Exec.ofExcept .mustache (Mustache.render text (templateData d))
  else
    let w ← get
    let args := match v with
      | .array a => (w.store.array a).toList.map w.printfArg
      | v => [w.printfArg v]
    Exec.ofExcept .printf (Printf.format text args)

/-- Formats a value. A failure is shown in brackets. -/
def formatValue (read : HandleId → Exec Value) (v format : Value) : Exec String :=
  tryCatch (formatOrFail read v format) fun f => return "format-error[" ++ f.report ++ "]"

end EventScript
