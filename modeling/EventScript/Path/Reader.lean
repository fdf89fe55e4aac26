import EventScript.Fault
import EventScript.Path.Printer

/-!
# Reading paths

A path text is a root, carets, a bare identifier after the roots `@` and `.`, and then any number of parts: a dot
and an identifier, or an index or a quoted key in brackets. A target of a write may have an operation and a colon
before it.
-/

namespace EventScript

/-- The root that a name after the dollar sign stands for. -/
def RootKey.ofDollarName? (name : String) : Option RootKey :=
  [RootKey.data, .global, .state, .local, .c, .component, .args, .context, .currentContext].find?
    (·.name == name)

/-- The identifier at the begin of a text, and what follows it. -/
def takeIdentifier? : List Char → Option (List Char × List Char)
  | [] => none
  | c :: rest =>
    if isIdentStart c then some (c :: rest.takeWhile isIdentChar, rest.dropWhile isIdentChar) else none

/-- The whole number at the begin of a text, in digits of any script, and what follows it. -/
def takeIndex? (cs : List Char) : Option (Int × List Char) :=
  let (negative, body) :=
    match cs with
    | '-' :: rest => (true, rest)
    | _ => (false, cs)
  let digits := body.takeWhile Text.isDecimal
  if digits.isEmpty then none
  else
    let n : Int := Text.digitsValue digits
    some (if negative then -n else n, body.dropWhile Text.isDecimal)

/-- A key after an opening single quote, up to the closing one; a backslash takes the next character as it is. -/
def takeSingleQuoted? : List Char → Option (List Char × List Char)
  | [] => none
  | '\\' :: c :: rest => (takeSingleQuoted? rest).map fun r => (c :: r.1, r.2)
  | c :: rest =>
    if c == '\x27' then some ([], rest) else (takeSingleQuoted? rest).map fun r => (c :: r.1, r.2)

/-- What stands in brackets: a quoted key or an index. `place` counts the characters before a rest of `text`. -/
def readBracketed (text : String) (place : List Char → Nat) (cs : List Char) :
    Except Malformed (Part × List Char) :=
  match cs with
  | '"' :: rest =>
    match Json.readText rest with
    | .ok (key, rest) => .ok (.key key, rest)
    | .error f => .error (.quotedKey text f.cause)
  | '\x27' :: rest =>
    match takeSingleQuoted? rest with
    | some (key, rest) => .ok (.key (String.ofList key), rest)
    | none => .error (.unterminatedKey text)
  | _ =>
    match takeIndex? cs with
    | some (i, rest) => .ok (.index i, rest)
    | none => .error (.indexOrKey (place cs) text)

/-- One part of a path. -/
def readPart (text : String) (place : List Char → Nat) (c : Char) (rest : List Char) :
    Except Malformed (Part × List Char) :=
  if c == '.' then
    match takeIdentifier? rest with
    | some (name, more) => .ok (.key (String.ofList name), more)
    | none => .error (.identifier (place (c :: rest)) text)
  else if c == '[' then do
    let (part, more) ← readBracketed text place rest
    match more with
    | ']' :: more => return (part, more)
    | _ => throw (.bracket (place more) text)
  else .error (.character c (place (c :: rest)) text)

/-- All parts up to the end of the text; every part takes at least one character. -/
def readParts (text : String) (place : List Char → Nat) : (fuel : Nat) → List Char →
    Except Malformed (List Part)
  | 0, _ => .ok []
  | _ + 1, [] => .ok []
  | fuel + 1, c :: rest => do
    let (part, more) ← readPart text place c rest
    return part :: (← readParts text place fuel more)

/-- The root of a path, without its carets. -/
def readRootKey (text : String) : List Char → Except Malformed (RootKey × List Char)
  | '$' :: rest =>
    match takeIdentifier? rest with
    | some (name, more) =>
      match RootKey.ofDollarName? (String.ofList name) with
      | some key => .ok (key, more)
      | none => .error (.rootName (String.ofList name) text)
    | none => .ok (.global, rest)
  | '@' :: rest => .ok (.context, rest)
  | '.' :: rest => .ok (.local, rest)
  | _ => .error (.pathStart text)

/-- Reads a path, its indices with any number of digits. -/
def Path.read (text : String) : Except Malformed Path := do
  let cs := text.toList
  if cs.isEmpty then throw (.notAPath (Text.quoted text))
  let place (rest : List Char) : Nat := cs.length - rest.length
  let (key, rest) ← readRootKey text cs
  let caret := (rest.takeWhile (· == '^')).length
  let rest := rest.drop caret
  let bare :=
    match cs with
    | '$' :: _ => none
    | _ => takeIdentifier? rest
  match bare with
  | some (name, more) =>
    return .mk (.root { key, caret }) (.key (String.ofList name) :: (← readParts text place more.length more))
  | none => return .mk (.root { key, caret }) (← readParts text place rest.length rest)

/-- The digits of the index at the begin of a text. -/
def indexDigits : List Char → List Char
  | '-' :: rest => rest.takeWhile Text.isDecimal
  | cs => cs.takeWhile Text.isDecimal

/-- Refuses the first index with too many digits, unless a part before it cannot be read. -/
def checkParts : (fuel : Nat) → List Char → Except Number.TooLong Unit
  | 0, _ => .ok ()
  | _ + 1, [] => .ok ()
  | fuel + 1, c :: rest => do
    if c == '[' then Number.TooLong.check (indexDigits rest)
    match readPart "" List.length c rest with
    | .ok (_, more) => checkParts fuel more
    | .error _ => return ()

/-- Refuses a text of a path with an index of too many digits. -/
def Path.checkText (text : String) : Except Number.TooLong Unit :=
  let cs := text.toList
  match readRootKey text cs with
  | .error _ => .ok ()
  | .ok (_, rest) =>
    let rest := rest.dropWhile (· == '^')
    let parts :=
      match cs with
      | '$' :: _ => rest
      | _ => ((takeIdentifier? rest).map (·.2)).getD rest
    checkParts parts.length parts

/-- Reads a path, unless an index in it is too long to be read. -/
def Path.parse (text : String) : Except Fault Path := do
  (Path.checkText text).mapError .digits
  (Path.read text).mapError .malformed

/-- The operation that a name stands for. -/
def WriteOp.read (name : String) : Except Malformed WriteOp :=
  match WriteOp.ofName? name with
  | some op => .ok op
  | none => .error (.writeOp name)

/-- The name of an operation before a colon, and the text after the colon, which is not empty. -/
def splitWriteOp? (cs : List Char) : Option (List Char × List Char) :=
  let isNameChar (c : Char) : Bool := c.isLower || c.isDigit || c == '-'
  match cs.takeWhile isNameChar, cs.dropWhile isNameChar with
  | c :: name, ':' :: d :: rest => if c.isLower then some (c :: name, d :: rest) else none
  | _, _ => none

/-- Reads the target of a write: a path, with an operation and a colon before it or with none. The indices of the
path have any number of digits. -/
def Path.readTarget (text : String) : Except Malformed (WriteOp × Path) :=
  match splitWriteOp? text.toList with
  | some (name, rest) => do
    let op ← WriteOp.read (String.ofList name)
    return (op, ← Path.read (String.ofList rest))
  | none => return (.set, ← Path.read text)

/-- Reads the target of a write, unless an index in its path is too long to be read. -/
def Path.parseTarget (text : String) : Except Fault (WriteOp × Path) :=
  match splitWriteOp? text.toList with
  | some (name, rest) => do
    let op ← (WriteOp.read (String.ofList name)).mapError .malformed
    return (op, ← Path.parse (String.ofList rest))
  | none => return (.set, ← Path.parse text)

end EventScript
