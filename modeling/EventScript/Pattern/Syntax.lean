import EventScript.Text.Case
import EventScript.Text.Digit
import EventScript.Text.Blank
import EventScript.Text.Quoted

/-!
# Patterns

The search patterns of scripts and their reader: literals, classes, groups, alternatives, repetitions, anchors,
back references and assertions about what follows or precedes.
-/

namespace EventScript.Pattern

/-- The three options of a search. -/
structure Options where
  ignoreCase : Bool := false
  multiline : Bool := false
  dotAll : Bool := false
  deriving DecidableEq, Repr, Inhabited

inductive Category where
  | digit
  | space
  | word
  deriving DecidableEq, Repr

/-- A member of a set of characters. -/
inductive Item where
  | char (c : Char)
  | range (low high : Nat)
  | category (negated : Bool) (k : Category)
  deriving DecidableEq, Repr

inductive Anchor where
  | lineStart
  | lineEnd
  | textStart
  | textEnd
  | boundary
  | notBoundary
  deriving DecidableEq, Repr

/-- How often a repetition tries to go on. -/
inductive Greed where
  | greedy
  | lazy
  | possessive
  deriving DecidableEq, Repr

inductive Pat where
  | char (o : Options) (c : Char)
  | any (o : Options)
  | set (o : Options) (negated : Bool) (items : List Item)
  | anchor (o : Options) (a : Anchor)
  | seq (ps : List Pat)
  | alt (ps : List Pat)
  | group (number : Option Nat) (p : Pat)
  | atomic (p : Pat)
  | repeat_ (low : Nat) (high : Option Nat) (greed : Greed) (p : Pat)
  | backref (o : Options) (number : Nat)
  | look (ahead negated : Bool) (width : Nat) (p : Pat)
  deriving Inhabited

/-- What is wrong with a pattern. -/
inductive Cause where
  | nothingToRepeat
  | multipleRepeat
  | minOverMax
  | unterminatedGroup
  | unterminatedComment
  | unbalanced
  | unterminatedSet
  | badRange (text : String)
  | badEscape (text : String)
  | incompleteEscape (text : String)
  | escapeAtEnd
  | unexpectedEnd
  | unknownExtension (text : String)
  | groupReference (number : Nat)
  | openGroup
  | octal (text : String)
  | lateFlags
  | missingName
  | unterminatedName (closer : String)
  | badName (text : String)
  | nameTwice (name : String) (number old : Nat)
  | unknownName (name : String)
  | variableLookBehind
  | missingCloser
  | missingColon
  | missingFlag
  | unknownFlag
  | byteFlag
  | typeFlag
  deriving DecidableEq, Repr

def Cause.message : Cause → String
  | .nothingToRepeat => "nothing to repeat"
  | .multipleRepeat => "multiple repeat"
  | .minOverMax => "min repeat greater than max repeat"
  | .unterminatedGroup => "missing ), unterminated subpattern"
  | .unterminatedComment => "missing ), unterminated comment"
  | .unbalanced => "unbalanced parenthesis"
  | .unterminatedSet => "unterminated character set"
  | .badRange t => "bad character range " ++ t
  | .badEscape t => "bad escape " ++ t
  | .incompleteEscape t => "incomplete escape " ++ t
  | .escapeAtEnd => "bad escape (end of pattern)"
  | .unexpectedEnd => "unexpected end of pattern"
  | .unknownExtension t => "unknown extension ?" ++ t
  | .groupReference n => "invalid group reference " ++ toString n
  | .openGroup => "cannot refer to an open group"
  | .octal t => "octal escape value " ++ t ++ " outside of range 0-0o377"
  | .lateFlags => "global flags not at the start of the expression"
  | .missingName => "missing group name"
  | .unterminatedName c => "missing " ++ c ++ ", unterminated name"
  | .badName t => "bad character in group name " ++ Text.quoted t
  | .nameTwice name n old =>
    "redefinition of group name " ++ Text.quoted name ++ " as group " ++ toString n
      ++ "; was group " ++ toString old
  | .unknownName name => "unknown group name " ++ Text.quoted name
  | .variableLookBehind => "look-behind requires fixed-width pattern"
  | .missingCloser => "missing -, : or )"
  | .missingColon => "missing :"
  | .missingFlag => "missing flag"
  | .unknownFlag => "unknown flag"
  | .byteFlag => "bad inline flags: cannot use 'L' flag with a str pattern"
  | .typeFlag => "bad inline flags: cannot turn off flags 'a', 'u' and 'L'"

/-- A fault of a pattern and its place; one without a place concerns the whole pattern. -/
structure Error where
  cause : Cause
  place : Option Nat
  /-- Line and column of the place, when the pattern has several lines. -/
  position : Option (Nat × Nat) := none
  deriving DecidableEq, Repr

def Error.message (e : Error) : String :=
  match e.place with
  | none => e.cause.message
  | some n =>
    let position := match e.position with
      | some (l, c) => " (line " ++ toString l ++ ", column " ++ toString c ++ ")"
      | none => ""
    e.cause.message ++ " at position " ++ toString n ++ position

/-! ### The width of a pattern -/

mutual

/-- The least and greatest number of characters a pattern takes; no greatest one when there is no bound.
`widths` gives the widths of the groups. -/
def Pat.width (widths : List (Nat × (Nat × Option Nat))) : Pat → Nat × Option Nat
  | .char _ _ | .any _ | .set _ _ _ => (1, some 1)
  | .anchor _ _ | .look _ _ _ _ => (0, some 0)
  | .seq ps => seqWidth widths ps
  | .alt ps => altWidth widths ps
  | .group _ p => p.width widths
  | .atomic p => p.width widths
  | .repeat_ low high _ p =>
    let w := p.width widths
    (low * w.1, match high, w.2 with
      | some h, some x => some (h * x)
      | none, some 0 => some 0
      | _, _ => none)
  | .backref _ n => (widths.lookup n).getD (0, none)

def seqWidth (widths : List (Nat × (Nat × Option Nat))) : List Pat → Nat × Option Nat
  | [] => (0, some 0)
  | p :: rest =>
    let a := p.width widths
    let b := seqWidth widths rest
    (a.1 + b.1, do return (← a.2) + (← b.2))

def altWidth (widths : List (Nat × (Nat × Option Nat))) : List Pat → Nat × Option Nat
  | [] => (0, some 0)
  | [p] => p.width widths
  | p :: rest =>
    let a := p.width widths
    let b := altWidth widths rest
    (min a.1 b.1, do return max (← a.2) (← b.2))

end

/-! ### The reader -/

/-- What a reader has seen: how many groups were opened, which are still open, their names and widths, and the
options set for the whole pattern. -/
structure Groups where
  count : Nat := 0
  opened : List Nat := []
  names : List (String × Nat) := []
  widths : List (Nat × (Nat × Option Nat)) := []

/-- The result of a reading step, with the characters left. -/
abbrev Step (α : Type) := Except Error (α × List Char × Groups)

/-- What a reader knows of the whole pattern: its length, and whether it ends with a backslash that escapes
nothing. -/
structure Whole where
  length : Nat
  broken : Bool

/-- Whether a text ends with a backslash that escapes nothing. -/
def endsBroken : List Char → Bool
  | [] => false
  | ['\\'] => true
  | '\\' :: _ :: rest => endsBroken rest
  | _ :: rest => endsBroken rest

/-- A fault at a place, noticed when `left` characters are left. A broken end is noticed one piece ahead, and so
before it. -/
def faultAt {α : Type} (total : Whole) (left : Nat) (place : Nat) (cause : Cause) : Except Error α :=
  if total.broken && left ≤ 1 then .error { cause := .escapeAtEnd, place := some (total.length - 1) }
  else .error { cause, place := some place }

/-- A fault `back` characters before the end of what has been read of a pattern. -/
def fault {α : Type} (total : Whole) (left : Nat) (back : Nat) (cause : Cause) : Except Error α :=
  faultAt total left (total.length - left - back) cause

/-- The characters up to a closing one, escapes passed over as wholes, and the rest from it on. -/
def takeUntil (closer : Char) : List Char → List Char × List Char
  | [] => ([], [])
  | '\\' :: c :: rest => let r := takeUntil closer rest; ('\\' :: c :: r.1, r.2)
  | c :: rest => if c == closer then ([], c :: rest) else let r := takeUntil closer rest; (c :: r.1, r.2)

/-- The first piece of a text: a character, or an escape with its backslash. -/
def firstPiece : List Char → List Char
  | '\\' :: c :: _ => ['\\', c]
  | c :: _ => [c]
  | [] => []

def categoryOf? : Char → Option (Bool × Category)
  | 'd' => some (false, .digit)
  | 'D' => some (true, .digit)
  | 's' => some (false, .space)
  | 'S' => some (true, .space)
  | 'w' => some (false, .word)
  | 'W' => some (true, .word)
  | _ => none

def anchorOf? : Char → Option Anchor
  | 'A' => some .textStart
  | 'Z' => some .textEnd
  | 'b' => some .boundary
  | 'B' => some .notBoundary
  | _ => none

def controlOf? : Char → Option Char
  | 'a' => some '\x07'
  | 'f' => some '\x0c'
  | 'n' => some '\n'
  | 'r' => some '\r'
  | 't' => some '\t'
  | 'v' => some '\x0b'
  | '\\' => some '\\'
  | _ => none

def isHex (c : Char) : Bool := c.isDigit || ('a' ≤ c && c ≤ 'f') || ('A' ≤ c && c ≤ 'F')

def isOctal (c : Char) : Bool := '0' ≤ c && c ≤ '7'

def hexDigit (c : Char) : Nat :=
  if c.isDigit then c.toNat - 48 else (c.toLower.toNat - 97) + 10

/-- At most `n` characters that satisfy `p`. -/
def takeAtMost (n : Nat) (p : Char → Bool) (cs : List Char) : List Char := (cs.take n).takeWhile p

def octalValue (cs : List Char) : Nat := cs.foldl (fun n c => 8 * n + (c.toNat - 48)) 0

/-- An escape with a fixed number of hexadecimal digits, after its letter. -/
def readHex (total : Whole) (letter : Char) (digits : Nat) (rest : List Char) :
    Except Error (Char × List Char) :=
  let ds := takeAtMost digits isHex rest
  let after := rest.drop ds.length
  if ds.length == digits then
    .ok (Char.ofNat (ds.foldl (fun n c => 16 * n + hexDigit c) 0), after)
  else
    let text := '\\' :: letter :: ds
    fault total after.length text.length (.incompleteEscape (String.ofList text))

/-- An escape that stands for a character, both in sets and outside; `rest` begins after the backslash. -/
def readCharEscape? (total : Whole) : List Char → Option (Except Error (Char × List Char))
  | 'x' :: rest => some (readHex total 'x' 2 rest)
  | 'u' :: rest => some (readHex total 'u' 4 rest)
  | 'U' :: rest => some (readHex total 'U' 8 rest)
  | c :: rest => (controlOf? c).map fun d => .ok (d, rest)
  | [] => none

/-- A member of a set that begins with a backslash. -/
def readSetEscape (total : Whole) (rest : List Char) : Except Error (Item × List Char) :=
  match readCharEscape? total rest with
  | some (.error e) => .error e
  | some (.ok (c, rest)) => .ok (.char c, rest)
  | none =>
    match rest with
    | [] => .error { cause := .escapeAtEnd, place := some (total.length - 1) }
    | 'b' :: rest => .ok (.char '\x08', rest)
    | c :: more =>
      match categoryOf? c with
      | some (n, k) => .ok (.category n k, more)
      | none =>
        if isOctal c then
          let ds := takeAtMost 3 isOctal rest
          let n := octalValue ds
          let after := rest.drop ds.length
          if 0xff < n then
            fault total after.length (ds.length + 1) (.octal (String.ofList ('\\' :: ds)))
          else .ok (.char (Char.ofNat n), after)
        else if c.isAlphanum then
          fault total more.length 2 (.badEscape (String.ofList ['\\', c]))
        else .ok (.char c, more)

/-- One member of a set, with its first piece. -/
def readSetItem (total : Whole) (opened : Nat) :
    List Char → Except Error (Item × List Char × List Char)
  | [] => fault total opened 0 .unterminatedSet
  | '\\' :: rest => do
    let (i, after) ← readSetEscape total rest
    return (i, '\\' :: rest.take 1, after)
  | c :: rest => .ok (.char c, [c], rest)

/-- The members of a set up to the closing bracket. `opened` is how many characters were left at the opening
bracket; `first` tells that a closing bracket would be a member. -/
def readSet (total : Whole) (opened : Nat) : (fuel : Nat) → (first : Bool) → List Char →
    Except Error (List Item × List Char)
  | 0, _, _ => fault total opened 0 .unterminatedSet
  | fuel + 1, first, cs => do
    if !first && cs.head? == some ']' then return ([], cs.tail)
    let (i, text, rest) ← readSetItem total opened cs
    match rest with
    | '-' :: ']' :: more => return ([i, .char '-'], more)
    | '-' :: more =>
      let (j, text', rest) ← readSetItem total opened more
      let whole := text ++ '-' :: text'
      match i, j with
      | .char a, .char b =>
        if b.toNat < a.toNat then
          fault total rest.length whole.length (.badRange (String.ofList whole))
        else
          let (items, rest) ← readSet total opened fuel false rest
          return (.range a.toNat b.toNat :: items, rest)
      | _, _ => fault total rest.length whole.length (.badRange (String.ofList whole))
    | _ =>
      let (items, rest) ← readSet total opened fuel false rest
      return (i :: items, rest)

/-- An escape outside a set; `rest` begins after the backslash. -/
def readEscape (total : Whole) (o : Options) (g : Groups) (rest : List Char) :
    Except Error (Pat × List Char) :=
  match rest with
  | [] => .error { cause := .escapeAtEnd, place := some (total.length - 1) }
  | c :: more =>
    match categoryOf? c, anchorOf? c with
    | some (n, k), _ => .ok (.set o false [.category n k], more)
    | none, some a => .ok (.anchor o a, more)
    | none, none =>
      match readCharEscape? total rest with
      | some (.error e) => .error e
      | some (.ok (d, rest)) => .ok (.char o d, rest)
      | none =>
        if c == '0' then
          let ds := takeAtMost 2 isOctal more
          .ok (.char o (Char.ofNat (octalValue ds)), more.drop ds.length)
        else if c.isDigit then
          let ds := takeAtMost 2 Char.isDigit rest
          let three := takeAtMost 3 isOctal rest
          if three.length == 3 then
            let n := octalValue three
            let after := rest.drop 3
            if 0xff < n then fault total after.length 4 (.octal (String.ofList ('\\' :: three)))
            else .ok (.char o (Char.ofNat n), after)
          else
            let n := Text.digitsValue ds
            let after := rest.drop ds.length
            if n ≤ g.count then
              if g.opened.contains n then fault total after.length (ds.length + 1) .openGroup
              else .ok (.backref o n, after)
            else fault total after.length ds.length (.groupReference n)
        else if c.isAlpha then
          fault total more.length 2 (.badEscape (String.ofList ['\\', c]))
        else .ok (.char o c, more)

/-- The bounds of a repetition in braces, after the opening one; none when the brace is a literal. -/
def readBounds? (cs : List Char) : Option (Nat × Option Nat × List Char) :=
  if cs.head? == some '\x7d' then none
  else
    let low := cs.takeWhile Char.isDigit
    let rest := cs.drop low.length
    let (high, rest) :=
      match rest with
      | ',' :: more =>
        let ds := more.takeWhile Char.isDigit
        (ds, more.drop ds.length)
      | _ => (low, rest)
    match rest with
    | '\x7d' :: after =>
      some (Text.digitsValue low, if high.isEmpty then none else some (Text.digitsValue high), after)
    | _ => none

/-- The operator of a repetition: its bounds and what follows it. -/
def readOperator? : List Char → Option (Nat × Option Nat × List Char)
  | '?' :: rest => some (0, some 1, rest)
  | '*' :: rest => some (0, none, rest)
  | '+' :: rest => some (1, none, rest)
  | '\x7b' :: rest => readBounds? rest
  | _ => none

/-- Whether a pattern is a repetition already. -/
def Pat.isRepeat : Pat → Bool
  | .repeat_ .. => true
  | _ => false

def Pat.isAnchor : Pat → Bool
  | .anchor .. => true
  | _ => false

/-- Sets the option that a letter stands for; those of other letters mean nothing here. -/
def Options.set (on : Bool) (o : Options) : Char → Options
  | 'i' => { o with ignoreCase := on }
  | 'm' => { o with multiline := on }
  | 's' => { o with dotAll := on }
  | _ => o

def isLetter (c : Char) : Bool := Text.isAlphanumeric c && !Text.isDecimal c

def isNameStart (c : Char) : Bool := c == '_' || isLetter c

/-- A letter of an option. -/
def isFlag (c : Char) : Bool := "iLmsxatu".contains c

/-- Reads letters of options, one at least, that are set or, after a hyphen, taken back; the character after them is
answered too. -/
def readFlags (total : Whole) (on : Bool) (o : Options) :
    List Char → Except Error (Options × Char × List Char)
  | [] => fault total 0 0 (if on then .missingCloser else .missingFlag)
  | c :: rest =>
    if !isFlag c then
      let piece := firstPiece (c :: rest)
      fault total (rest.length + 1 - piece.length) piece.length
        (if isLetter c then .unknownFlag else .missingFlag)
    else if c == 'L' && on then fault total rest.length 0 .byteFlag
    else if !on && "Lau".contains c then fault total rest.length 0 .typeFlag
    else
      let o := o.set on c
      match rest with
      | [] => fault total 0 0 (if on then .missingCloser else .missingColon)
      | d :: more =>
        if d == ':' || (on && (d == ')' || d == '-')) then .ok (o, d, more)
        else if isFlag d then readFlags total on o (d :: more)
        else
          let piece := firstPiece (d :: more)
          fault total (more.length + 1 - piece.length) piece.length
            (if isLetter d then .unknownFlag else if on then .missingCloser else .missingColon)

/-- What an extension after `(?` begins. -/
inductive Opening where
  | capture (name : Option String)
  | plain (o : Options)
  | atomic
  | look (ahead negated : Bool)
  /-- A piece of its own: a comment, a reference by name. -/
  | piece (p : Pat)
  /-- Options for the whole pattern. -/
  | options (o : Options)

/-- A group name up to its closing character. -/
def readName (total : Whole) (closer : Char) (cs : List Char) : Except Error (String × List Char) :=
  let (name, rest) := takeUntil closer cs
  if rest.isEmpty then
    if name.isEmpty then fault total 0 0 .missingName
    else fault total 0 name.length (.unterminatedName closer.toString)
  else if name.isEmpty then fault total rest.tail.length 1 .missingName
  else if !(name.head?.any isNameStart) || !name.all Text.isWordChar then
    fault total rest.tail.length (name.length + 1) (.badName (String.ofList name))
  else .ok (String.ofList name, rest.tail)

/-- Reads what stands after an opening parenthesis. `opened` is how many characters were left at the
parenthesis, `atStart` whether the pattern begins there. -/
def readOpening (total : Whole) (opened : Nat) (atStart : Bool) (o : Options) (g : Groups) (cs : List Char) :
    Except Error (Opening × List Char) :=
  match cs with
  | '?' :: rest =>
    let unknown (text : List Char) : Except Error (Opening × List Char) :=
      fault total (rest.length - text.length) (text.length + 1) (.unknownExtension (String.ofList text))
    match rest with
    | [] => fault total 0 0 .unexpectedEnd
    | ':' :: more => .ok (.plain o, more)
    | '>' :: more => .ok (.atomic, more)
    | '=' :: more => .ok (.look true false, more)
    | '!' :: more => .ok (.look true true, more)
    | '<' :: '=' :: more => .ok (.look false false, more)
    | '<' :: '!' :: more => .ok (.look false true, more)
    | '<' :: [] => fault total 0 0 .unexpectedEnd
    | '<' :: more => unknown ('<' :: firstPiece more)
    | '#' :: more =>
      let after := (takeUntil ')' more).2
      if after.isEmpty then faultAt total 0 (total.length - opened) .unterminatedComment
      else .ok (.piece (.seq []), after.tail)
    | 'P' :: '<' :: more => do
      let (name, rest) ← readName total '>' more
      match g.names.lookup name with
      | some old => fault total rest.length (name.length + 1) (.nameTwice name (g.count + 1) old)
      | none => return (.capture (some name), rest)
    | 'P' :: '=' :: more => do
      let (name, rest) ← readName total ')' more
      match g.names.lookup name with
      | none => fault total rest.length (name.length + 1) (.unknownName name)
      | some n =>
        if g.opened.contains n then fault total rest.length (name.length + 1) .openGroup
        else return (.piece (.backref o n), rest)
    | 'P' :: [] => fault total 0 0 .unexpectedEnd
    | 'P' :: more => unknown ('P' :: firstPiece more)
    | c :: more =>
      if !isFlag c && c != '-' then unknown (firstPiece rest)
      else do
        let (o', closer, after) ← if c == '-' then pure (o, c, more) else readFlags total true o rest
        match closer with
        | ')' =>
          if atStart then return (.options o', after)
          faultAt total after.length (total.length - opened) .lateFlags
        | '-' =>
          let (o', _, after) ← readFlags total false o' after
          return (.plain o', after)
        | _ => return (.plain o', after)
  | _ => .ok (.capture none, cs)

mutual

/-- Reads alternatives up to a closing parenthesis or the end. -/
def readAlternatives (total : Whole) : (fuel : Nat) → Options → Bool → Groups → List Char → Step Pat
  | 0, _, _, g, cs => .ok (.seq [], cs, g)
  | fuel + 1, o, atStart, g, cs =>
    match readSequence total fuel o atStart g [] cs with
    | .error e => .error e
    | .ok (p, '|' :: rest, g) =>
      match readAlternatives total fuel o false g rest with
      | .error e => .error e
      | .ok (.alt ps, rest, g) => .ok (.alt (p :: ps), rest, g)
      | .ok (q, rest, g) => .ok (.alt [p, q], rest, g)
    | .ok (p, rest, g) => .ok (p, rest, g)

/-- Reads the pieces of a sequence; `done` holds those read, last first. -/
def readSequence (total : Whole) :
    (fuel : Nat) → Options → Bool → Groups → List Pat → List Char → Step Pat
  | 0, _, _, g, done, cs => .ok (.seq done.reverse, cs, g)
  | fuel + 1, o, atStart, g, done, cs =>
    match cs with
    | [] => .ok (.seq done.reverse, [], g)
    | '|' :: _ | ')' :: _ => .ok (.seq done.reverse, cs, g)
    | '\\' :: rest =>
      match readEscape total o g rest with
      | .error e => .error e
      | .ok (p, rest) => readSequence total fuel o false g (p :: done) rest
    | '.' :: rest => readSequence total fuel o false g (.any o :: done) rest
    | '^' :: rest => readSequence total fuel o false g (.anchor o .lineStart :: done) rest
    | '$' :: rest => readSequence total fuel o false g (.anchor o .lineEnd :: done) rest
    | '[' :: rest =>
      let (negated, body) :=
        match rest with
        | '^' :: more => (true, more)
        | _ => (false, rest)
      match readSet total (rest.length + 1) (body.length + 1) true body with
      | .error e => .error e
      | .ok (items, rest) => readSequence total fuel o false g (.set o negated items :: done) rest
    | '(' :: rest =>
      let opened := rest.length + 1
      match readOpening total opened (atStart && done.isEmpty) o g rest with
      | .error e => .error e
      | .ok (.piece p, rest) =>
        let done := match p with
          | .seq [] => done
          | p => p :: done
        readSequence total fuel o atStart g done rest
      | .ok (.options o', rest) => readSequence total fuel o' true g done rest
      | .ok (opening, rest) =>
        let number := match opening with
          | .capture _ => some (g.count + 1)
          | _ => none
        let inner := match opening with
          | .plain o' => o'
          | _ => o
        let g' := match opening with
          | .capture name =>
            { g with
              count := g.count + 1
              opened := (g.count + 1) :: g.opened
              names := match name with
                | some n => (n, g.count + 1) :: g.names
                | none => g.names }
          | _ => g
        match readAlternatives total fuel inner false g' rest with
        | .error e => .error e
        | .ok (p, ')' :: rest, g'') =>
          let g'' := match number with
            | some n =>
              { g'' with opened := g''.opened.erase n, widths := (n, p.width g''.widths) :: g''.widths }
            | none => g''
          match opening with
          | .look true negated => readSequence total fuel o false g'' (.look true negated 0 p :: done) rest
          | .look false negated =>
            let w := p.width g''.widths
            if w.2 == some w.1 then
              readSequence total fuel o false g'' (.look false negated w.1 p :: done) rest
            else .error { cause := .variableLookBehind, place := none }
          | .atomic => readSequence total fuel o false g'' (.atomic p :: done) rest
          | _ => readSequence total fuel o false g'' (.group number p :: done) rest
        | .ok (_, _, _) => fault total opened 0 .unterminatedGroup
    | c :: rest =>
      match readOperator? cs with
      | none => readSequence total fuel o false g (.char o c :: done) rest
      | some (low, high, after) =>
        let back := cs.length - after.length
        if high.any (· < low) then
          fault total after.length (back - 1) .minOverMax
        else
          match done with
          | [] => fault total after.length back .nothingToRepeat
          | p :: earlier =>
            if p.isAnchor then fault total after.length back .nothingToRepeat
            else if p.isRepeat then fault total after.length back .multipleRepeat
            else
              let (greed, after) :=
                match after with
                | '?' :: more => (Greed.lazy, more)
                | '+' :: more => (Greed.possessive, more)
                | _ => (Greed.greedy, after)
              readSequence total fuel o false g (.repeat_ low high greed p :: earlier) after

end

/-- The line and column of a place in a pattern of several lines. -/
def Error.located (cs : List Char) (e : Error) : Error :=
  match e.place with
  | some n =>
    if cs.contains '\n' then
      let before := cs.take n
      let column := (before.reverse.takeWhile (· != '\n')).length + 1
      { e with position := some (before.count '\n' + 1, column) }
    else e
  | none => e

/-- Reads a pattern; also the number of its groups. -/
def read (o : Options) (s : String) : Except Error (Pat × Nat) :=
  let cs := s.toList
  match readAlternatives { length := cs.length, broken := endsBroken cs } (2 * cs.length + 2) o true {} cs with
  | .error e => .error (e.located cs)
  | .ok (p, [], g) => .ok (p, g.count)
  | .ok (_, rest, _) =>
    .error (Error.located cs { cause := .unbalanced, place := some (cs.length - rest.length) })

end EventScript.Pattern
