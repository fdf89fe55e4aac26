import EventScript.Yaml.Label

/-!
# The tokens of a YAML text

The text is cut into scalars, marks of flow collections, and marks of block collections, which come from
indentation alone. A token turns out to begin a key only when its colon is found; the marks that then stand before
it are kept with it, so the list of tokens only grows.
-/

namespace EventScript.Yaml

inductive Token where
  | directive (d : Directive)
  | documentStart
  | documentEnd
  | blockSequenceStart
  | blockMappingStart
  | blockEnd
  | flowSequenceStart
  | flowSequenceEnd
  | flowMappingStart
  | flowMappingEnd
  | blockEntry
  | flowEntry
  | key
  | value
  | alias (name : String)
  | anchor (name : String)
  | tag (t : TagText)
  | scalar (text : String) (plain : Bool)
  deriving DecidableEq, Repr, Inhabited

/-- A token and the marks that stand before it because it begins a key. -/
structure Placed where
  before : List Token := []
  token : Token
  deriving Inhabited

/-- A token that begins a key if a colon follows, and where it stands. At the begin of a line of a block mapping
the colon must follow. -/
structure Candidate where
  level : Nat
  place : Nat
  required : Bool
  index : Nat
  line : Nat
  column : Nat

/-- Where the cutting stands. -/
structure Scan where
  cursor : Cursor
  tokens : Array Placed := #[]
  /-- How many flow collections are open. -/
  level : Nat := 0
  /-- The column of the innermost block collection, less than zero if there is none. -/
  column : Int := -1
  /-- The columns of the block collections around it. -/
  outer : List Int := []
  /-- Whether a key may begin here. -/
  keyAllowed : Bool := true
  candidates : List Candidate := []

namespace Scan

def inFlow (s : Scan) : Bool := s.level != 0

def push (s : Scan) (t : Token) : Scan := { s with tokens := s.tokens.push { token := t } }

/-- Takes in some characters as one token. -/
def take (s : Scan) (n : Nat) (t : Token) : Scan :=
  { s with cursor := s.cursor.advance n }.push t

/-- Takes in a token that ends at a place. -/
def takeTo (s : Scan) (c : Cursor) (t : Token) : Scan := { s with cursor := c }.push t

/-! ### Indentation -/

/-- Ends block collections from the innermost on, those that stand right of a column. -/
def closeFrom (column : Int) (s : Scan) : List Int → Scan
  | [] => s
  | outer :: rest =>
    if column < s.column then
      closeFrom column ({ s with column := outer, outer := rest }.push .blockEnd) rest
    else s

/-- Ends the block collections that stand right of a column; inside flow collections indentation means nothing. -/
def close (s : Scan) (column : Int) : Scan := if s.inFlow then s else s.closeFrom column s.outer

/-- Opens a block collection unless one stands at this column already; the marks for it. -/
def openAt (s : Scan) (column : Int) (mark : Token) : Scan × List Token :=
  if s.column < column then ({ s with column, outer := s.column :: s.outer }, [mark]) else (s, [])

/-- Opens a block collection here unless one stands here already. -/
def openHere (s : Scan) (mark : Token) : Scan :=
  let (s, marks) := s.openAt s.cursor.column mark
  marks.foldl push s

/-! ### Keys -/

/-- Forgets the candidates that a test tells; one that must be a key is missed. -/
def forget (s : Scan) (p : Candidate → Bool) : Except Refusal Scan :=
  if s.candidates.any fun k => p k && k.required then .error .malformed
  else .ok { s with candidates := s.candidates.filter fun k => !p k }

/-- Forgets the candidate among the members of the innermost collection. -/
def forgetHere (s : Scan) : Except Refusal Scan := s.forget (·.level == s.level)

/-- Forgets candidates on earlier lines or too far back. -/
def forgetOld (s : Scan) : Except Refusal Scan :=
  s.forget fun k => k.line != s.cursor.line || 1024 < s.cursor.index - k.index

/-- Notes that the next token may begin a key. -/
def propose (s : Scan) : Except Refusal Scan := do
  if !s.keyAllowed then return s
  let s ← s.forgetHere
  let c := s.cursor
  let k : Candidate :=
    { level := s.level, place := s.tokens.size, required := !s.inFlow && s.column == c.column
      index := c.index, line := c.line, column := c.column }
  return { s with candidates := k :: s.candidates }

/-- Puts marks before a token. -/
def putBefore (s : Scan) (place : Nat) (marks : List Token) : Scan :=
  { s with tokens := s.tokens.modify place fun t => { t with before := marks } }

/-! ### Tokens -/

/-- Past spaces, comments and line breaks; after a line break outside flow collections a key may begin. -/
def skipGaps : (fuel : Nat) → Scan → Scan
  | 0, s => s
  | fuel + 1, s =>
    match s.cursor.skipSpaces.skipComment with
    | c =>
      match c.lineBreak? with
      | some (_, c) => skipGaps fuel { s with cursor := c, keyAllowed := s.keyAllowed || !s.inFlow }
      | none => { s with cursor := c }

/-- A mark that ends all block collections: a directive or the begin or the end of a document. -/
def endBlocks (s : Scan) : Except Refusal Scan := do
  let s ← (s.close (-1)).forgetHere
  return { s with keyAllowed := false }

def openFlow (s : Scan) (t : Token) : Except Refusal Scan := do
  let s ← s.propose
  return { s with level := s.level + 1, keyAllowed := true }.take 1 t

def closeFlow (s : Scan) (t : Token) : Except Refusal Scan := do
  if !s.inFlow then throw .malformed
  let s ← s.forgetHere
  return { s with level := s.level - 1, keyAllowed := false }.take 1 t

def flowEntry (s : Scan) : Except Refusal Scan := do
  let s ← s.forgetHere
  return { s with keyAllowed := true }.take 1 .flowEntry

/-- Asks in a block for a place where a key or an entry may begin, and opens a collection there. -/
def beginBlock (s : Scan) (mark : Token) : Except Refusal Scan :=
  if s.inFlow then .ok s
  else if s.keyAllowed then .ok (s.openHere mark)
  else .error .malformed

def blockEntry (s : Scan) : Except Refusal Scan := do
  let s ← (← s.beginBlock .blockSequenceStart).forgetHere
  return { s with keyAllowed := true }.take 1 .blockEntry

/-- The mark of a key that is no single token. -/
def keyMark (s : Scan) : Except Refusal Scan := do
  let s ← (← s.beginBlock .blockMappingStart).forgetHere
  return { s with keyAllowed := !s.inFlow }.take 1 .key

/-- A colon: what may begin a key does. -/
def valueMark (s : Scan) : Except Refusal Scan := do
  match s.candidates.find? (·.level == s.level) with
  | some k =>
    let s := { s with
      candidates := s.candidates.filter (·.level != s.level)
      keyAllowed := false }
    let (s, marks) := if s.inFlow then (s, []) else s.openAt k.column .blockMappingStart
    return (s.putBefore k.place (marks ++ [.key])).take 1 .value
  | none =>
    let s ← (← s.beginBlock .blockMappingStart).forgetHere
    return { s with keyAllowed := !s.inFlow }.take 1 .value

/-- A token that may begin a key and after which none may. -/
def simple (s : Scan) (cut : Cursor → Except Refusal (Token × Cursor)) : Except Refusal Scan := do
  let s ← s.propose
  let (t, c) ← cut s.cursor
  return { s with keyAllowed := false }.takeTo c t

def quoted (s : Scan) (double : Bool) : Except Refusal Scan :=
  s.simple fun c => do
    let (text, last) ← quotedScalar double (c.rest.length + 1) c.step
    return (.scalar (String.ofList text) false, last)

def block (s : Scan) (folded : Bool) : Except Refusal Scan := do
  let s ← s.forgetHere
  let (text, c) ← blockScalar folded s.column s.cursor.step
  return { s with keyAllowed := true }.takeTo c (.scalar (String.ofList text) false)

def plain (s : Scan) : Except Refusal Scan := do
  let s ← s.propose
  let c := s.cursor
  let (text, crossed, last) := plainScalar s.inFlow (s.column + 1) (c.rest.length + 1) c
  return { s with keyAllowed := crossed }.takeTo last (.scalar (String.ofList text) true)

/-- Whether a plain scalar may begin with these characters. -/
def beginsPlain (s : Scan) : List Char → Bool
  | [] => false
  | x :: rest =>
    (!isGap x && !"-?:,[]\x7b\x7d#&*!|>'\"%@\x60".contains x)
      || (!gapNext rest && (x == '-' || (!s.inFlow && (x == '?' || x == ':'))))

/-- Cuts the next token. -/
def next (s : Scan) : Except Refusal Scan :=
  let c := s.cursor
  match c.rest with
  | [] => .ok s
  | x :: rest =>
    if x == '%' && c.column == 0 then do
      let s ← s.endBlocks
      let (d, c) ← directive c.step
      return s.takeTo c (.directive d)
    else if c.column == 0 && c.atDocumentStart then do return (← s.endBlocks).take 3 .documentStart
    else if c.column == 0 && c.atDocumentEnd then do return (← s.endBlocks).take 3 .documentEnd
    else if x == '[' then s.openFlow .flowSequenceStart
    else if x == '\x7b' then s.openFlow .flowMappingStart
    else if x == ']' then s.closeFlow .flowSequenceEnd
    else if x == '\x7d' then s.closeFlow .flowMappingEnd
    else if x == ',' then s.flowEntry
    else if x == '-' && gapNext rest then s.blockEntry
    else if x == '?' && (s.inFlow || gapNext rest) then s.keyMark
    else if x == ':' && (s.inFlow || gapNext rest) then s.valueMark
    else if x == '*' then s.simple fun c => do
      let (name, c) ← anchorName c.step
      return (.alias name, c)
    else if x == '&' then s.simple fun c => do
      let (name, c) ← anchorName c.step
      return (.anchor name, c)
    else if x == '!' then s.simple fun c => do
      let (t, c) ← tag c
      return (.tag t, c)
    else if x == '|' && !s.inFlow then s.block false
    else if x == '>' && !s.inFlow then s.block true
    else if x == '\x27' then s.quoted false
    else if x == '"' then s.quoted true
    else if s.beginsPlain c.rest then s.plain
    else .error .malformed

/-- Cuts the text to its end; each token takes one from `fuel`. -/
def run : (fuel : Nat) → Scan → Except Refusal Scan
  | 0, _ => .error .malformed
  | fuel + 1, s => do
    let s := s.skipGaps (s.cursor.rest.length + 1)
    let s ← s.forgetOld
    let s := s.close s.cursor.column
    if s.cursor.rest.isEmpty then (s.close (-1)).forgetHere
    else run fuel (← s.next)

end Scan

/-- The tokens of a text. -/
def Token.ofText (text : String) : Except Refusal (List Token) := do
  let cs := text.toList
  if !cs.all isAllowed then throw .malformed
  let start : Cursor := { rest := cs }
  let start := if cs.head?.any isByteOrderMark then start.step else start
  let s ← Scan.run (cs.length + 1) { cursor := start }
  return s.tokens.toList.flatMap fun t => t.before ++ [t.token]

end EventScript.Yaml
