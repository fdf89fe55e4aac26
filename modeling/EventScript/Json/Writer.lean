import EventScript.Datum

/-!
# Writing JSON

Two layouts: on one line without blanks, or with one item a line, indented by two. Texts keep their characters
but for quotes, backslashes and controls; keys in paths are written in ASCII alone.
-/

namespace EventScript.Json

/-- The escape of a code unit. -/
def unitEscape (n : Nat) : List Char := '\\' :: 'u' :: Text.hexWidth 4 n

/-- How one character stands in a text. `ascii` escapes all others. -/
def escapeChar (ascii : Bool) (c : Char) : List Char :=
  match c with
  | '"' => ['\\', '"']
  | '\\' => ['\\', '\\']
  | '\n' => ['\\', 'n']
  | '\r' => ['\\', 'r']
  | '\t' => ['\\', 't']
  | '\x0c' => ['\\', 'f']
  | '\x08' => ['\\', 'b']
  | c =>
    let n := c.toNat
    if n < 0x20 then unitEscape n
    else if !ascii || n < 0x7f then [c]
    else if n < 0x10000 then unitEscape n
    else unitEscape (0xd800 + (n - 0x10000) / 1024) ++ unitEscape (0xdc00 + (n - 0x10000) % 1024)

/-- A text between double quotes. -/
def quoteWith (ascii : Bool) (s : String) : String :=
  String.ofList ('"' :: s.toList.flatMap (escapeChar ascii) ++ ['"'])

/-- A text between double quotes, its characters kept. -/
def quote (s : String) : String := quoteWith false s

/-- A text between double quotes, in ASCII alone. -/
def quoteAscii (s : String) : String := quoteWith true s

/-- A number; NaN and the infinities are written as words. -/
def numberText : Number → String
  | .int n => Decimal.intText n
  | .nan _ => "NaN"
  | .float x => if x.isInf then (if x < 0 then "-Infinity" else "Infinity") else Decimal.floatText x

/-- A line break and the indentation of a level; nothing in the layout on one line. -/
def breakText (pretty : Bool) (level : Nat) : String :=
  if pretty then "\n" ++ String.ofList (List.replicate (2 * level) ' ') else ""

mutual

/-- A datum at a level of indentation. -/
def writeAt (pretty : Bool) (level : Nat) : Datum → String
  | .null => "null"
  | .bool b => if b then "true" else "false"
  | .num n => numberText n
  | .str s => quote s
  | .array [] => "[]"
  | .array items =>
    "[" ++ breakText pretty (level + 1) ++ writeItems pretty (level + 1) items
      ++ breakText pretty level ++ "]"
  | .object [] => "\x7b\x7d"
  | .object entries =>
    "\x7b" ++ breakText pretty (level + 1) ++ writeEntries pretty (level + 1) entries
      ++ breakText pretty level ++ "\x7d"

def writeItems (pretty : Bool) (level : Nat) : List Datum → String
  | [] => ""
  | [x] => writeAt pretty level x
  | x :: rest =>
    writeAt pretty level x ++ "," ++ breakText pretty level ++ writeItems pretty level rest

def writeEntries (pretty : Bool) (level : Nat) : List (Key × Datum) → String
  | [] => ""
  | [e] => quote e.1.text ++ (if pretty then ": " else ":") ++ writeAt pretty level e.2
  | e :: rest =>
    quote e.1.text ++ (if pretty then ": " else ":") ++ writeAt pretty level e.2 ++ ","
      ++ breakText pretty level ++ writeEntries pretty level rest

end

/-- The JSON text of a datum. -/
def write (pretty : Bool) (d : Datum) : String := writeAt pretty 0 d

end EventScript.Json
