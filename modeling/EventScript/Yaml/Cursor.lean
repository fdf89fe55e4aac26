import EventScript.Yaml.Refusal

/-!
# Places in a YAML text

The characters that matter to the form of a text, and a place in it that knows its line and column.
-/

namespace EventScript.Yaml

/-- A character that a YAML text may contain. -/
def isAllowed (c : Char) : Bool :=
  let n := c.toNat
  n == 9 || n == 10 || n == 13 || (0x20 ≤ n && n ≤ 0x7e) || n == 0x85 || (0xa0 ≤ n && n ≤ 0xd7ff)
    || (0xe000 ≤ n && n ≤ 0xfffd) || 0x10000 ≤ n

/-- The mark that may stand before the first character of a text. -/
def isByteOrderMark (c : Char) : Bool := c.toNat == 0xfeff

def isBreak (c : Char) : Bool :=
  c == '\n' || c == '\r' || c.toNat == 0x85 || c.toNat == 0x2028 || c.toNat == 0x2029

/-- A space or a line break. -/
def isSpaceOrBreak (c : Char) : Bool := c == ' ' || isBreak c

/-- A space, a tab or a line break. -/
def isGap (c : Char) : Bool := c == '\t' || isSpaceOrBreak c

/-- Whether a text ends here or goes on with a gap. -/
def gapNext (cs : List Char) : Bool := cs.head?.all isGap

/-- Whether a text ends here or goes on with a space or a line break. -/
def spaceNext (cs : List Char) : Bool := cs.head?.all isSpaceOrBreak

/-- A letter, a digit, a hyphen or an underscore, of ASCII. -/
def isNameChar (c : Char) : Bool := c.isAlphanum || c == '-' || c == '_'

/-- A place: the characters left, how many came before, and the line and column. -/
structure Cursor where
  rest : List Char
  index : Nat := 0
  line : Nat := 0
  column : Nat := 0
  deriving Inhabited

namespace Cursor

def peek? (c : Cursor) : Option Char := c.rest.head?

/-- One character on. A carriage return before a line feed does not end the line. -/
def step (c : Cursor) : Cursor :=
  match c.rest with
  | [] => c
  | x :: rest =>
    if isBreak x && !(x == '\r' && rest.head? == some '\n') then
      { rest, index := c.index + 1, line := c.line + 1, column := 0 }
    else
      { rest, index := c.index + 1, line := c.line
        column := if isByteOrderMark x then c.column else c.column + 1 }

/-- Some characters on. -/
def advance (c : Cursor) : Nat → Cursor
  | 0 => c
  | n + 1 => c.step.advance n

/-- The characters from here on that satisfy `p`, and the place after them. -/
def span (c : Cursor) (p : Char → Bool) : List Char × Cursor :=
  let taken := c.rest.takeWhile p
  (taken, c.advance taken.length)

/-- On to the first character that does not satisfy `p`. -/
def skip (c : Cursor) (p : Char → Bool) : Cursor := (c.span p).2

/-- On to the first character that is no space. -/
def skipSpaces (c : Cursor) : Cursor := c.skip (· == ' ')

/-- On to the end of the line. -/
def skipLine (c : Cursor) : Cursor := c.skip fun x => !isBreak x

/-- Past a line break and the character it counts as, if there is one here. -/
def lineBreak? (c : Cursor) : Option (Char × Cursor) :=
  match c.rest with
  | '\r' :: '\n' :: _ => some ('\n', c.advance 2)
  | x :: _ =>
    if x == '\r' || x == '\n' || x.toNat == 0x85 then some ('\n', c.step)
    else if isBreak x then some (x, c.step)
    else none
  | [] => none

/-- Past a comment, if there is one here. -/
def skipComment (c : Cursor) : Cursor := if c.peek? == some '#' then c.skipLine else c

/-- Past the rest of a line that holds nothing but a comment. -/
def finishLine (c : Cursor) : Except Refusal Cursor :=
  let c := c.skipSpaces.skipComment
  match c.lineBreak? with
  | some (_, c) => .ok c
  | none => if c.rest.isEmpty then .ok c else .error .malformed

/-- Whether three hyphens stand here, alone. -/
def atDocumentStart (c : Cursor) : Bool :=
  match c.rest with
  | '-' :: '-' :: '-' :: rest => gapNext rest
  | _ => false

/-- Whether three points stand here, alone. -/
def atDocumentEnd (c : Cursor) : Bool :=
  match c.rest with
  | '.' :: '.' :: '.' :: rest => gapNext rest
  | _ => false

/-- Whether a line that starts here marks the begin or the end of a document. -/
def atSeparator (c : Cursor) : Bool := c.atDocumentStart || c.atDocumentEnd

end Cursor

end EventScript.Yaml
