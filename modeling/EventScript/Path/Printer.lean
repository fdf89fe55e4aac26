import EventScript.Script
import EventScript.Json.Writer

/-!
# Path texts

The text of a path: roots by their signs, identifiers after dots, all other keys and the indices in brackets.
After the roots `@` and `.` the first identifier needs no dot. Computed parts have no text of their own.
-/

namespace EventScript

/-- A character that can begin an identifier. -/
def isIdentStart (c : Char) : Bool := c.isAlpha || c == '_'

/-- A character that can stand in an identifier. -/
def isIdentChar (c : Char) : Bool := c.isAlphanum || c == '_'

/-- A letter or underscore and any number of letters, digits and underscores. -/
def isIdentifier : List Char → Bool
  | [] => false
  | c :: rest => isIdentStart c && rest.all isIdentChar

/-- Whether a key is printed as it is: an identifier, one line feed after it allowed. -/
def isBareKey (key : String) : Bool :=
  let cs := key.toList
  isIdentifier cs || (cs.getLast? == some '\n' && isIdentifier cs.dropLast)

/-- The sign of a root, without its carets. -/
def RootKey.sign : RootKey → String
  | .global | .data => "$"
  | .context => "@"
  | .local => "."
  | .expr => "(expr)"
  | k => "$" ++ k.name

/-- Whether the first identifier after a root needs no dot. -/
def RootKey.bareNext : RootKey → Bool
  | .context | .local => true
  | _ => false

def Root.text (r : Root) : String := r.key.sign ++ String.ofList (List.replicate r.caret '^')

/-- The text of one part; `bare` says that an identifier needs no dot here. -/
def Part.text (bare : Bool) : Part → String
  | .root r => r.text
  | .key k =>
    if isBareKey k then (if bare then k else "." ++ k) else "[" ++ Json.quoteAscii k ++ "]"
  | .index i => "[" ++ toString i ++ "]"
  | .dyn _ => "[dyn]"
  | .deref _ => "$(deref)"

/-- Whether an identifier after this part needs no dot. -/
def Part.bareNext : Part → Bool
  | .root r => r.key.bareNext
  | _ => false

/-- The texts of parts one after the other. -/
def partsText (bare : Bool) : List Part → String
  | [] => ""
  | p :: rest => p.text bare ++ partsText p.bareNext rest

/-- The text of a path, its indices with all their digits. -/
def Path.text (p : Path) : String := partsText false p.parts

/-- Whether a part is an index with too many digits to be written. -/
def Part.isLong : Part → Bool
  | .index i => Decimal.isLong i
  | _ => false

/-- Whether a path has an index with too many digits to be written. -/
def Path.isLong (p : Path) : Bool := p.parts.any Part.isLong

/-- The text of a path, unless an index in it is too long to be written. -/
def Path.spell (p : Path) : Except Number.TooLong String := if p.isLong then .error .writing else .ok p.text

end EventScript
