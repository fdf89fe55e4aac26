import EventScript.Datum
import EventScript.Yaml.Page
import EventScript.Yaml.Tag

/-!
# Writing YAML

Plain data as a document in block form: a text stands plain if it can and reads back as a text, else between single
quotes, else between double quotes.
-/

namespace EventScript.Yaml

/-- What a text allows: standing plain, standing between single quotes; and whether it has several lines. -/
structure Look where
  plain : Bool
  single : Bool
  multiline : Bool
  deriving DecidableEq, Repr

/-- A character that needs no escape anywhere. -/
def isOrdinary (c : Char) : Bool :=
  let n := c.toNat
  c == '\n' || (0x20 ≤ n && n ≤ 0x7e)
    || (!isByteOrderMark c && (n == 0x85 || (0xa0 ≤ n && n ≤ 0xd7ff) || (0xe000 ≤ n && n ≤ 0xfffd)
      || (0x10000 ≤ n && n < 0x10ffff)))

/-- Whether a space comes right before a line break, or the other way round, as `p` and `q` say. -/
def adjacent (p q : Char → Bool) (cs : List Char) : Bool :=
  (cs.zip cs.tail).any fun e => p e.1 && q e.2

/-- Whether a character after the first marks something in block form, between its neighbours. -/
def marksInside (previous c : Char) (next : Option Char) : Bool :=
  (c == ':' && next.all isGap) || (c == '#' && isGap previous)

/-- Whether a text after its first character holds a mark of block form. -/
def holdsMark (previous : Char) : List Char → Bool
  | [] => false
  | c :: rest => marksInside previous c rest.head? || holdsMark c rest

/-- Whether a text would mean something else in block form. -/
def looksMarked (cs : List Char) : Bool :=
  match cs with
  | [] => false
  | c :: rest =>
    "---".toList.isPrefixOf cs || "...".toList.isPrefixOf cs
      || "#,[]\x7b\x7d&*!|>'\"%@\x60".contains c
      || ((c == '?' || c == ':' || c == '-') && gapNext rest)
      || holdsMark c rest

/-- What a text allows. -/
def Look.ofText (s : String) : Look :=
  let cs := s.toList
  let isSpace (c : Char) : Bool := c == ' '
  let atEnds := (cs.head?.toList ++ cs.getLast?.toList).any fun c => isSpace c || Page.isValueBreak c
  let breakSpace := adjacent Page.isValueBreak isSpace cs
  let spaceBreak := adjacent isSpace Page.isValueBreak cs
  let special := !cs.all isOrdinary
  let multiline := cs.any Page.isValueBreak
  { plain := !atEnds && !breakSpace && !spaceBreak && !special && !multiline && !looksMarked cs
    single := !breakSpace && !spaceBreak && !special
    multiline }

/-- Where a node stands. -/
inductive Place where
  | root
  | item
  | value
  deriving DecidableEq, Repr

namespace Page

/-- Writes a text that has to read back as a text. A key on the line of its value is not folded. -/
def string (p : Page) (column : Nat) (isKey root : Bool) (s : String) : Page :=
  let look := Look.ofText s
  if look.plain && Tag.ofPlain s == .str && !(isKey && (s.isEmpty || look.multiline)) then
    p.plain column (!isKey) root s
  else if look.single && !(isKey && look.multiline) then p.single column (!isKey) s
  else p.double column (!isKey) s

/-- Whether a key may stand on the line of its value. -/
def isSimpleKey (s : String) : Bool :=
  s.length + 5 < 128 && !s.isEmpty && !(Look.ofText s).multiline

end Page

/-- The text of a number; an exponent follows a point. -/
def numberText (n : Number) : String :=
  let cs := n.literalText.toList
  match n with
  | .float _ =>
    if cs.contains 'e' && !cs.contains '.' then
      String.ofList (cs.takeWhile (· != 'e') ++ '.' :: '0' :: cs.dropWhile (· != 'e'))
    else String.ofList cs
  | _ => String.ofList cs

/-- The column of the members of a collection inside another one. -/
def inner (column : Option Nat) : Nat := (column.map (· + 2)).getD 0

/-- The column of the later lines of a scalar. -/
def scalarColumn (column : Option Nat) : Nat := (column.map (· + 2)).getD 2

mutual

/-- Writes a node inside a collection at `column`. -/
def writeNode (column : Option Nat) (place : Place) (p : Page) : Datum → Page
  | .null => p.plain (scalarColumn column) true (place == .root) "null"
  | .bool b => p.plain (scalarColumn column) true (place == .root) (if b then "true" else "false")
  | .num n => p.plain (scalarColumn column) true (place == .root) (numberText n)
  | .str s => p.string (scalarColumn column) false (place == .root) s
  | .array [] => (p.mark "[" true true).mark "]" false
  | .array items =>
    let here := if place == .value && !p.bare then column.getD 0 else inner column
    writeItems here p items
  | .object [] => (p.mark "\x7b" true true).mark "\x7d" false
  | .object entries => writeEntries (inner column) p entries

/-- Writes the items of a sequence at a column. -/
def writeItems (column : Nat) (p : Page) : List Datum → Page
  | [] => p
  | d :: rest =>
    let p := (p.indent column).mark "-" true false true
    writeItems column (writeNode (some column) .item p d) rest

/-- Writes the entries of a mapping at a column. -/
def writeEntries (column : Nat) (p : Page) : List (Key × Datum) → Page
  | [] => p
  | (k, d) :: rest =>
    let p := p.indent column
    let p :=
      if Page.isSimpleKey k.text then (p.string (column + 2) true false k.text).mark ":" false
      else
        let p := (p.mark "?" true false true).string (column + 2) false false k.text
        (p.indent column).mark ":" true false true
    writeEntries column (writeNode (some column) .value p d) rest

end

/-- The text of a document. -/
def write (d : Datum) : String :=
  let p := (writeNode none .root {} d).indent 0
  if p.openEnded then ((p.mark "..." true).indent 0).text else p.text

end EventScript.Yaml
