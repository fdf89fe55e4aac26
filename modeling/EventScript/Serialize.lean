import EventScript.Export
import EventScript.Yaml.Load
import EventScript.Yaml.Writer

/-!
# Data as text

Values written as JSON or YAML, and read from it.
-/

namespace EventScript

inductive DataFormat where
  | json
  | yaml
  deriving DecidableEq, Repr

/-- The format a value names; upper and lower case are the same. -/
def DataFormat.ofValue (v : Value) : Exec DataFormat := do
  let w ← get
  if !w.isFilled v then throw (.dataFormat (w.literal v))
  match v with
  | .str s =>
    match Text.lower s with
    | "json" => return .json
    | "yaml" => return .yaml
    | _ => throw (.dataFormat (Text.quoted s))
  | v => throw (.attribute (w.typeName v) "lower")

/-- The text of a value in a format. -/
def serialize (read : HandleId → Exec Value) (f : DataFormat) (pretty : Bool) (v : Value) :
    Exec String :=
  match f with
  | .json => toJson read pretty true v
  | .yaml => do return Yaml.write (← toDatum read true v)

/-- The value of a text in a format. -/
def deserialize (f : DataFormat) (text : String) : Exec Value :=
  match f with
  | .json => do ofDatum (← Exec.ofExcept .json (Json.read text))
  | .yaml => Yaml.load text

end EventScript
