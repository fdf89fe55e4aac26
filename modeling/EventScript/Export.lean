import EventScript.Structural.Copy
import EventScript.Json.Writer

/-!
# Values and plain data

What a text format writes of a value, and the value of what one has read. Special values are written as the text
they show; what is neither finite nor a number is null.
-/

namespace EventScript

namespace World

/-- The plain datum of a value without cycles and handles. -/
def datumFrom (w : World) : (fuel : Nat) → Value → Except Number.Overflow Datum
  | 0, _ => .ok .null
  | fuel + 1, v =>
    match v with
    | .array a => do
      return .array (← (w.store.array a).toList.mapM (datumFrom w fuel))
    | .object _ | .context _ => do
      let entries ← (w.entries v).mapM fun e => do
        return (Key.str e.1.text, ← datumFrom w fuel e.2)
      return .object (Entries.ofList entries)
    | .null => .ok .null
    | .str s => .ok (.str s)
    | .bool b => .ok (.bool b)
    | .num n => do
      n.inRange
      return if n.isNan || n.infinite?.isSome then .null else .num n
    | v => .ok (.str (w.display v))

end World

/-- The plain datum of a value. -/
def toDatum (read : HandleId → Exec Value) (resolve : Bool) (v : Value) : Exec Datum := do
  let copy ← deepCopy read resolve v
  let w ← get
  Exec.ofExcept .overflow (w.datumFrom (w.containerCount + 2) copy)

/-- The JSON text of a value. -/
def toJson (read : HandleId → Exec Value) (pretty resolve : Bool) (v : Value) : Exec String := do
  return Json.write pretty (← toDatum read resolve v)

mutual

/-- A plain datum as a value. -/
def ofDatum : Datum → Exec Value
  | .null => pure .null
  | .bool b => pure (.bool b)
  | .num n => pure (.num n)
  | .str s => pure (.str s)
  | .array items => do Exec.newArray (← ofData items).toArray
  | .object entries => do Exec.newObject (Entries.ofList (← ofDatumEntries entries))

def ofData : List Datum → Exec (List Value)
  | [] => return []
  | d :: rest => do
    let v ← ofDatum d
    return v :: (← ofData rest)

def ofDatumEntries : List (Key × Datum) → Exec (List (Key × Value))
  | [] => return []
  | (k, d) :: rest => do
    let v ← ofDatum d
    return (k, v) :: (← ofDatumEntries rest)

end

end EventScript
