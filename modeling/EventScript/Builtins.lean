import EventScript.Format
import EventScript.Structural.Equal
import EventScript.Pattern.Match

/-!
# Built-in functions

The functions that every script can call. They see what handles lead to, never the handles, and null in the place
of an absent value.
-/

namespace EventScript

/-- An index into `n` elements: a negative one counts from the end, and both ends are the limit. -/
def normIndex (v : Value) (n : Nat) : Exec Nat := do
  let i ← Exec.ofExcept .notWhole (← Exec.numberOf v).truncate
  return if i < 0 then (n + i).toNat else min i.toNat n

/-- A count, which is not negative. -/
def countOf (v : Value) : Exec Nat := do
  return (← Exec.ofExcept .notWhole (← Exec.numberOf v).truncate).toNat

/-- A blob, none for null; nothing else is allowed. -/
def blobArg (function : String) (v : Value) : Exec (Option Blob) := do
  match v with
  | .null => return none
  | .blob b => return some ((← Exec.store).blob b)
  | _ => Exec.fail (.blobArgument function)

/-- The elements from `a` up to before `b`. -/
def cutList {α : Type} (a b : Nat) (xs : List α) : List α := (xs.take b).drop a

/-- What a value lists: elements, characters or keys. -/
def elementsOf (v : Value) : Exec (List Value) := do
  let w ← get
  match v with
  | .str s => return s.toList.map fun c => .str c.toString
  | .array a => return (w.store.array a).toList
  | .object _ | .context _ => return (Entries.keys (w.entries v)).map Value.ofKey
  | v => throw (.notIterable (w.typeName v))

namespace Builtin

/-- The number of characters, elements, entries or bytes. -/
def lenOf (v : Value) : Exec Value := do
  let w ← get
  match v with
  | .str s => return .int s.length
  | .array a => return .int (w.store.array a).size
  | .object _ | .context _ => return .int (w.entries v).length
  | .blob b => return .int (w.store.blob b).byteLength
  | _ => return .int 0

/-- The place of the first element of a list that equals `needle`, counted from `at_`. -/
def indexIn (read : HandleId → Exec Value) (needle : Value) : (at_ : Nat) → List Value → Exec Int
  | _, [] => return -1
  | n, x :: rest => do
    if ← deepEqual read x needle then return n else indexIn read needle (n + 1) rest

/-- The place of the first occurrence in a text or an array, or -1. -/
def indexOfIn (read : HandleId → Exec Value) (haystack needle start : Value) : Exec Value := do
  match haystack with
  | .str s =>
    let needle ← displayOf needle
    let i ← Exec.ofExcept .notWhole (← Exec.numberOf start).truncate
    let first := if i < 0 then (s.length + i).toNat else i.toNat
    return .int (((Text.find? needle.toList s.toList first).map Int.ofNat).getD (-1))
  | .array a =>
    let xs := ((← Exec.store).array a).toList
    let first ← normIndex start xs.length
    return .int (← indexIn read needle first (xs.drop first))
  | _ => return .int (-1)

/-- A copy of an array with some elements taken out at a place and others put in. -/
def spliceOf (v start : Value) (count : Value) (items : List Value) : Exec Value := do
  let xs ← match v with
    | .null => pure []
    | .array a => do pure ((← Exec.store).array a).toList
    | _ => Exec.fail .spliceArgument
  let first ← normIndex start xs.length
  let count ← match count with
    | .null => pure (xs.length - first)
    | c => countOf c
  Exec.newArray (xs.take first ++ items ++ xs.drop (first + count)).toArray

/-- A part of a text or an array. -/
def sliceOf (v start stop : Value) : Exec Value := do
  let bounds (n : Nat) : Exec (Nat × Nat) := do
    let first ← normIndex start n
    let last ← match stop with
      | .null => pure n
      | e => normIndex e n
    return (first, last)
  match v with
  | .null => return .null
  | .str s =>
    let (first, last) ← bounds s.length
    return .str (String.ofList (cutList first last s.toList))
  | .array a =>
    let xs := ((← Exec.store).array a).toList
    let (first, last) ← bounds xs.length
    Exec.newArray (cutList first last xs).toArray
  | _ => Exec.fail .sliceArgument

/-- One object with the entries of all; later ones win. -/
def mergeOf (vs : List Value) : Exec Value := do
  let w ← get
  Exec.newObject (vs.foldl (fun es v => Entries.update es (w.entries v)) [])

/-- The texts between the occurrences of a separator; no separator leaves the text whole, an empty one cuts it into
characters. -/
def splitOf (v sep limit : Value) : Exec Value := do
  if v == .null then return ← Exec.newArray #[]
  let s ← displayOf v
  let pieces ← match sep with
    | .null => pure [s]
    | .str "" => pure (s.toList.map (·.toString))
    | sep => do pure (Text.splitOn (← displayOf sep) s)
  let pieces ← match limit with
    | .null => pure pieces
    | n => do pure (pieces.take (← countOf n))
  Exec.newArray (pieces.map Value.str).toArray

def substrOf (v start length : Value) : Exec Value := do
  if v == .null then return .null
  let cs := (← displayOf v).toList
  let first ← normIndex start cs.length
  match length with
  | .null => return .str (String.ofList (cs.drop first))
  | n => return .str (String.ofList ((cs.drop first).take (← countOf n)))

/-- Whether a text has another at one of its ends; null has none. -/
def endTest (test : List Char → List Char → Bool) (v piece : Value) : Exec Value := do
  if v == .null || piece == .null then return .bool false
  let s ← displayOf v
  let p ← displayOf piece
  return .bool (test p.toList s.toList)

/-- One flag of a search, in the options it sets. -/
def withFlag (o : Pattern.Options) (flag : Value) : Exec Pattern.Options := do
  match flag with
  | .str "i" => return { o with ignoreCase := true }
  | .str "m" => return { o with multiline := true }
  | .str "s" => return { o with dotAll := true }
  | .str "g" => return o
  | v =>
    Exec.checkWritten v.isLong
    Exec.fail (.matchFlag ((← get).plain v))

/-- The flags that a value lists. -/
def flagsOf (v : Value) : Exec (List Value) := do
  if (← get).isFilled v then elementsOf v else return []

/-- What a pattern finds in a text and its groups, or null. -/
def matchOf (v pattern flags : Value) : Exec Value := do
  if v == .null || pattern == .null then return .null
  let options ← (← flagsOf flags).foldlM withFlag {}
  let pattern ← displayOf pattern
  let s ← displayOf v
  let (p, groups) ← Exec.ofExcept .pattern (Pattern.read options pattern)
  match Pattern.search p groups s with
  | none => return .null
  | some found => Exec.newArray (found.map fun g => (g.map Value.str).getD .null).toArray

/-- The whole part of a number; null for what has none. -/
def intOf (v : Value) : Exec Value := do
  let n ← Exec.numberOf v
  Exec.ofExcept .overflow n.inRange
  match n.truncate with
  | .ok i => return .int i
  | .error _ => return .null

/-- The floating point number that a value counts as. -/
def floatOf (v : Value) : Exec Value := do
  match ← Exec.numberOf v with
  | .int i => return .num (.float (← Exec.ofExcept .overflow (Number.int i).toFloat))
  | n => return .num n

/-- A unique id: the count of those before it, in the digits of one. -/
def freshId : Exec String := do
  let n ← modifyGet fun w => (w.serials, { w with serials := w.serials + 1 })
  return "00000000-0000-4000-8000-" ++ String.ofList (Text.hexWidth 12 n)

/-- Calls a built-in function; the arguments hold no handle and nothing absent. -/
def run (read : HandleId → Exec Value) (b : Builtin) (args : List Value) : Exec Value :=
  match b, args with
  | .len, [v] => lenOf v
  | .indexOf, [h, n] => indexOfIn read h n (.int 0)
  | .indexOf, [h, n, start] => indexOfIn read h n start
  | .splice, [v, start] => spliceOf v start .null []
  | .splice, v :: start :: count :: items => spliceOf v start count items
  | .slice, [v] => sliceOf v (.int 0) .null
  | .slice, [v, start] => sliceOf v start .null
  | .slice, [v, start, stop] => sliceOf v start stop
  | .merge, vs => mergeOf vs
  | .keys, [v] => do
    Exec.newArray ((Entries.keys ((← get).entries v)).map Value.ofKey).toArray
  | .values, [v] => do Exec.newArray (Entries.values ((← get).entries v)).toArray
  | .equal, [x, y] => do return .bool (← deepEqual read x y)
  | .copy, [v] => deepCopy read true v
  | .int, [v] => intOf v
  | .float, [v] => floatOf v
  | .str, [v] => do return .str (← displayOf v)
  | .bool, [v] => do return .bool (← Exec.ofExcept .overflow v.toBool)
  | .jsonParse, [v] => do
    if v == .null then return .null
    ofDatum (← Exec.ofExcept .json (Json.read (← displayOf v)))
  | .json, [v] => do return .str (← toJson read false true v)
  | .json, [v, pretty] => do
    let pretty ← Exec.ofExcept .overflow pretty.toBool
    return .str (← toJson read pretty true v)
  | .split, [v] => splitOf v .null .null
  | .split, [v, sep] => splitOf v sep .null
  | .split, [v, sep, limit] => splitOf v sep limit
  | .substr, [v, start] => substrOf v start .null
  | .substr, [v, start, length] => substrOf v start length
  | .sprintf, format :: args => do
    let format ← displayOf format
    let w ← get
    return .str (← Exec.ofExcept .printf (Printf.format format (args.map w.printfArg)))
  | .startsWith, [v, p] => endTest Text.startsWith v p
  | .endsWith, [v, p] => endTest Text.endsWith v p
  | .match_, [v, p] => matchOf v p .null
  | .match_, [v, p, flags] => matchOf v p flags
  | .now, [] | .ts, [] => do return .int (← get).clock
  | .uuid, [] => do return .str (← freshId)
  | .blobAsText, [v] => do
    match ← blobArg "blobastext" v with
    | none => return .null
    | some b => return .str (← Exec.ofExcept .base64 b.text)
  | .blobAsBase64, [v] => do
    match ← blobArg "blobasbase64" v with
    | none => return .null
    | some b => return .str b.data
  | .blobMimeType, [v] => do
    match ← blobArg "blobmimetype" v with
    | none => return .null
    | some b => return .str b.mime
  | .blobLen, [v] => do
    match ← blobArg "bloblen" v with
    | none => return .int 0
    | some b => return .int b.byteLength
  | _, _ => throw .arity

/-- Calls a built-in function on any values. -/
def apply (read : HandleId → Exec Value) (b : Builtin) (args : List Value) : Exec Value := do
  let args ← args.mapM fun v => do return (← follow read defaultHandleDepth v).orNull
  b.run read args

end Builtin

end EventScript
