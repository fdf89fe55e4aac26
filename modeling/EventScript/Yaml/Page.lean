import EventScript.Yaml.Cursor
import EventScript.Text.Quoted

/-!
# Writing YAML line by line

A page keeps the column it is at and whether a blank is needed before the next mark. Long scalars are folded at
single spaces once the column is past the width.
-/

namespace EventScript.Yaml

structure Page where
  text : String := ""
  column : Nat := 0
  /-- Whether the last thing written is a blank, a line break or nothing. -/
  blank : Bool := true
  /-- Whether the line holds only blanks and marks of block collections so far. -/
  bare : Bool := true
  /-- Whether the end of the document has to be marked. -/
  openEnded : Bool := false

namespace Page

/-- The column past which scalars are folded. -/
def width : Nat := 80

def put (p : Page) (cs : List Char) : Page :=
  { p with text := p.text ++ String.ofList cs, column := p.column + cs.length }

/-- Writes a mark, after a space if it needs one. -/
def mark (p : Page) (s : String) (spaced : Bool) (blank : Bool := false) (bare : Bool := false) : Page :=
  let cs := if p.blank || !spaced then s.toList else ' ' :: s.toList
  { p.put cs with blank, bare := p.bare && bare, openEnded := false }

def lineBreak (p : Page) (c : Char) : Page :=
  { p with text := p.text.push c, column := 0, blank := true, bare := true }

/-- To a column of a line that holds nothing else. -/
def indent (p : Page) (column : Nat) : Page :=
  let p := if !p.bare || column < p.column || (p.column == column && !p.blank) then p.lineBreak '\n' else p
  if p.column < column then
    { p.put (List.replicate (column - p.column) ' ') with blank := true }
  else p

/-! ### Scalars -/

/-- The kinds of runs that a scalar on several lines is made of. -/
inductive Run where
  | spaces (count : Nat)
  | breaks (cs : List Char)
  | word (cs : List Char)
  deriving DecidableEq, Repr

/-- A line break as it stands in a value that is written. -/
def isValueBreak (c : Char) : Bool := isBreak c && c != '\r'

/-- A text cut into runs. -/
def runs : List Char → List Run
  | [] => []
  | c :: rest =>
    let after := runs rest
    if c == ' ' then
      match after with
      | .spaces n :: more => .spaces (n + 1) :: more
      | _ => .spaces 1 :: after
    else if isValueBreak c then
      match after with
      | .breaks cs :: more => .breaks (c :: cs) :: more
      | _ => .breaks [c] :: after
    else
      match after with
      | .word cs :: more => .word (c :: cs) :: more
      | _ => .word [c] :: after

/-- Writes line breaks of a value: one more than there are if the first is an ordinary one, since a single one
counts as a space. -/
def breaks (p : Page) (column : Nat) (cs : List Char) : Page :=
  let p := if cs.head? == some '\n' then p.lineBreak '\n' else p
  (cs.foldl lineBreak p).indent column

/-- Writes the runs of a plain scalar. -/
def plainRuns (column : Nat) (split : Bool) (p : Page) : List Run → Page
  | [] => p
  | .spaces n :: rest =>
    let p := if n == 1 && width < p.column && split then { p.indent column with blank := false, bare := false }
      else p.put (List.replicate n ' ')
    plainRuns column split p rest
  | .breaks cs :: rest => plainRuns column split { p.breaks column cs with blank := false, bare := false } rest
  | .word cs :: rest => plainRuns column split (p.put cs) rest

/-- Writes a plain scalar; one that is the whole document leaves its end open. -/
def plain (p : Page) (column : Nat) (split root : Bool) (s : String) : Page :=
  let p := if root then { p with openEnded := true } else p
  if s.isEmpty then p
  else
    let p := if p.blank then p else p.put [' ']
    plainRuns column split { p with blank := false, bare := false } (runs s.toList)

/-- Writes the runs between single quotes; neither the first nor the last one is folded. -/
def singleRuns (column : Nat) (split : Bool) (first : Bool) (p : Page) : List Run → Page
  | [] => p
  | .spaces n :: rest =>
    let fold := n == 1 && width < p.column && split && !first && !rest.isEmpty
    singleRuns column split false
      (if fold then p.indent column else p.put (List.replicate n ' ')) rest
  | .breaks cs :: rest => singleRuns column split false (p.breaks column cs) rest
  | .word cs :: rest =>
    singleRuns column split false (p.put (cs.flatMap fun c => if c == '\x27' then [c, c] else [c])) rest

def single (p : Page) (column : Nat) (split : Bool) (s : String) : Page :=
  (singleRuns column split true (p.mark "'" true) (runs s.toList)).mark "'" false

/-- The letter of an escape, if a character has one. -/
def escapeLetter? : Char → Option Char
  | '\x00' => some '0'
  | '\x07' => some 'a'
  | '\x08' => some 'b'
  | '\t' => some 't'
  | '\n' => some 'n'
  | '\x0b' => some 'v'
  | '\x0c' => some 'f'
  | '\r' => some 'r'
  | '\x1b' => some 'e'
  | '"' => some '"'
  | '\\' => some '\\'
  | '\u0085' => some 'N'
  | '\u00a0' => some '_'
  | '\u2028' => some 'L'
  | '\u2029' => some 'P'
  | _ => none

/-- Whether a character stands for itself between double quotes. -/
def isVerbatim (c : Char) : Bool :=
  let n := c.toNat
  c != '"' && c != '\\' && n != 0x85 && n != 0x2028 && n != 0x2029 && !isByteOrderMark c
    && ((0x20 ≤ n && n ≤ 0x7e) || (0xa0 ≤ n && n ≤ 0xd7ff) || (0xe000 ≤ n && n ≤ 0xfffd))

/-- A character as an escape. -/
def escape (c : Char) : List Char :=
  let hex (width : Nat) : List Char :=
    (Text.hexWidth width c.toNat).map Char.toUpper
  match escapeLetter? c with
  | some x => ['\\', x]
  | none =>
    if c.toNat ≤ 0xff then '\\' :: 'x' :: hex 2
    else if c.toNat ≤ 0xffff then '\\' :: 'u' :: hex 4
    else '\\' :: 'U' :: hex 8

/-- Writes characters between double quotes: `held` are those read but not written yet, `first` is the place of
the next one. A line is broken after a backslash, before a space or where nothing is held; a space at the begin of
a line is escaped. -/
def doubleFrom (column : Nat) (split : Bool) (first : Bool) (held : List Char) (p : Page) : List Char → Page
  | [] => p.put held
  | c :: rest =>
    let verbatim := isVerbatim c
    let p := if verbatim then p else (p.put held).put (escape c)
    let held := if verbatim then held else []
    let reach : Nat := if verbatim then p.column + held.length else p.column - 1
    if !first && !rest.isEmpty && (c == ' ' || held.isEmpty) && width < reach && split then
      let p := { (p.put (held ++ ['\\'])).indent column with blank := false, bare := false }
      let p := if (if verbatim then some c else rest.head?) == some ' ' then p.put ['\\'] else p
      doubleFrom column split false (if verbatim then [c] else []) p rest
    else doubleFrom column split false (if verbatim then held ++ [c] else []) p rest

def double (p : Page) (column : Nat) (split : Bool) (s : String) : Page :=
  (doubleFrom column split true [] (p.mark "\"" true) s.toList).mark "\"" false

end Page

end EventScript.Yaml
