import EventScript.Datum

/-!
# Reading JSON

A reader of JSON texts in which the words `NaN`, `Infinity` and `-Infinity` are numbers too. A repeated key
keeps its first place and takes the last value. Every failure names its cause and the place in the text. The escape of
half a surrogate pair without the other half is read as U+FFFD, as no character of a text stands for it.
-/

namespace EventScript.Json

/-- Why a text is not JSON. -/
inductive Cause where
  | value
  | comma
  | colon
  | name
  | extra
  | unterminated
  | control
  | escape
  | codeEscape
  | byteOrderMark
  /-- A whole number with too many digits. -/
  | tooLong (cause : Number.TooLong)
  deriving Repr, DecidableEq

def Cause.message : Cause → String
  | .value => "Expecting value"
  | .comma => "Expecting ',' delimiter"
  | .colon => "Expecting ':' delimiter"
  | .name => "Expecting property name enclosed in double quotes"
  | .extra => "Extra data"
  | .unterminated => "Unterminated string starting at"
  | .control => "Invalid control character at"
  | .escape => "Invalid \\escape"
  | .codeEscape => "Invalid \\uXXXX escape"
  | .byteOrderMark => "Unexpected UTF-8 BOM (decode using utf-8-sig)"
  | .tooLong cause => cause.message

/-- A failure, with the number of characters from its place to the end of the text. -/
structure Failure where
  cause : Cause
  left : Nat
  deriving Repr, DecidableEq

/-- A failure in a text: its cause, the text and the place. -/
structure Error where
  cause : Cause
  line : Nat
  column : Nat
  place : Nat
  deriving Repr, DecidableEq

/-- The class of a failure, as messages name it. -/
def Error.typeName (e : Error) : String :=
  match e.cause with
  | .tooLong _ => "ValueError"
  | _ => "JSONDecodeError"

def Error.message (e : Error) : String :=
  match e.cause with
  | .tooLong cause => cause.message
  | _ =>
    e.cause.message ++ ": line " ++ toString e.line ++ " column " ++ toString e.column
      ++ " (char " ++ toString e.place ++ ")"

/-- Line and column of a failure in the text it happened in. -/
def Failure.inText (text : List Char) (f : Failure) : Error :=
  let place := text.length - f.left
  let before := text.take place
  let column := (before.reverse.takeWhile (· != '\n')).length + 1
  { cause := f.cause, line := before.count '\n' + 1, column, place }

/-- A reading step: what was read and the characters left. -/
abbrev Step (α : Type) := Except Failure (α × List Char)

def fail {α : Type} (cause : Cause) (at_ : List Char) : Step α := .error ⟨cause, at_.length⟩

def isSpace (c : Char) : Bool := c == ' ' || c == '\t' || c == '\n' || c == '\r'

def skipSpace (cs : List Char) : List Char := cs.dropWhile isSpace

/-- The value of a hexadecimal digit. -/
def hexValue? (c : Char) : Option Nat :=
  if c.isDigit then some (c.toNat - 48)
  else if 'a' ≤ c && c ≤ 'f' then some (c.toNat - 87)
  else if 'A' ≤ c && c ≤ 'F' then some (c.toNat - 55)
  else none

/-- The number that exactly four hexadecimal digits spell. -/
def hexFour? : List Char → Option Nat
  | [a, b, c, d] => do
    return 4096 * (← hexValue? a) + 256 * (← hexValue? b) + 16 * (← hexValue? c) + (← hexValue? d)
  | _ => none

/-- The character of a simple escape. -/
def simpleEscape? : Char → Option Char
  | '"' => some '"'
  | '\\' => some '\\'
  | '/' => some '/'
  | 'b' => some '\x08'
  | 'f' => some '\x0c'
  | 'n' => some '\n'
  | 'r' => some '\r'
  | 't' => some '\t'
  | _ => none

/-- The low half of a pair of code units, read where the escape of a high half ended. -/
def lowHalf? (rest : List Char) : Except Unit (Option Nat) :=
  match rest with
  | '\\' :: 'u' :: more =>
    if more.length ≤ 4 then .ok none
    else match hexFour? (more.take 4) with
      | none => .error ()
      | some low => .ok (if 0xdc00 ≤ low && low < 0xe000 then some low else none)
  | _ => .ok none

/-- The characters of a text up to its closing quote. `opened` is how many characters were left at the opening
quote, `skip` how many belong to an escape already read. U+FFFD stands for a half of a surrogate pair on its own. -/
def textFrom (opened : Nat) : (skip : Nat) → List Char → Step (List Char)
  | _, [] => .error ⟨.unterminated, opened⟩
  | skip + 1, _ :: rest => textFrom opened skip rest
  | 0, c :: rest =>
    if c == '"' then .ok ([], rest)
    else if c == '\\' then
      match rest with
      | [] => .error ⟨.unterminated, opened⟩
      | 'u' :: more =>
        if more.length ≤ 4 then fail .codeEscape rest
        else match hexFour? (more.take 4) with
          | none => fail .codeEscape rest
          | some unit =>
            let after := more.drop 4
            if 0xd800 ≤ unit && unit < 0xdc00 then
              match lowHalf? after with
              | .error _ => fail .codeEscape after.tail
              | .ok none => (textFrom opened 5 rest).map fun r => (Char.ofNat 0xfffd :: r.1, r.2)
              | .ok (some low) =>
                (textFrom opened 11 rest).map fun r =>
                  (Char.ofNat (0x10000 + (unit - 0xd800) * 1024 + (low - 0xdc00)) :: r.1, r.2)
            else (textFrom opened 5 rest).map fun r => (Char.ofNat unit :: r.1, r.2)
      | e :: _ =>
        match simpleEscape? e with
        | none => fail .escape (c :: rest)
        | some d => (textFrom opened 1 rest).map fun r => (d :: r.1, r.2)
    else if c.toNat ≤ 0x1f then fail .control (c :: rest)
    else (textFrom opened 0 rest).map fun r => (c :: r.1, r.2)

/-- A text after its opening quote. -/
def readText (rest : List Char) : Step String :=
  (textFrom (rest.length + 1) 0 rest).map fun r => (String.ofList r.1, r.2)

/-- The number a text begins with: a whole one without fraction and exponent, else a floating point one. -/
def readNumber? (cs : List Char) : Option (Number × List Char) :=
  let (negative, body) :=
    match cs with
    | '-' :: rest => (true, rest)
    | _ => (false, cs)
  let whole :=
    match body with
    | '0' :: _ => ['0']
    | _ => body.takeWhile Char.isDigit
  if whole.isEmpty then none
  else
    let rest := body.drop whole.length
    let (places, rest, isFloat) :=
      match rest with
      | '.' :: more =>
        let ds := more.takeWhile Char.isDigit
        if ds.isEmpty then ([], rest, false) else (ds, more.drop ds.length, true)
      | _ => ([], rest, false)
    let (exponent, rest, isFloat) :=
      match rest with
      | c :: more =>
        if c == 'e' || c == 'E' then
          let (down, ds) := Number.splitSign more
          let digits := ds.takeWhile Char.isDigit
          if digits.isEmpty then ((0 : Int), rest, isFloat)
          else
            let n : Int := Text.digitsValue digits
            (if down then -n else n, ds.drop digits.length, true)
        else (0, rest, isFloat)
      | [] => (0, rest, isFloat)
    let n := Text.digitsValue (whole ++ places)
    if isFloat then some (.float (Decimal.ofDecimal negative n (exponent - places.length)), rest)
    else some (.int (if negative then -(n : Int) else n), rest)

/-- Refuses a whole number with too many digits. -/
def checkNumber (n : Number) (at_ : List Char) : Except Failure Unit :=
  match n with
  | .int i =>
    match Number.TooLong.check (Decimal.natText i.natAbs) with
    | .ok _ => .ok ()
    | .error e => .error ⟨.tooLong e, at_.length⟩
  | _ => .ok ()

/-- The mark of the NaN that JSON texts spell. -/
def nanOrigin : Nat := 1

/-- The words that are values. -/
def words : List (String × Datum) :=
  [("null", .null), ("true", .bool true), ("false", .bool false), ("NaN", .num (.nan nanOrigin)),
    ("Infinity", .num (Number.infinity false)), ("-Infinity", .num (Number.infinity true))]

/-- The word a text begins with. -/
def readWord? (cs : List Char) : Option (Datum × List Char) :=
  words.findSome? fun w =>
    if w.1.toList.isPrefixOf cs then some (w.2, cs.drop w.1.length) else none

mutual

/-- Reads one value. Every call takes one from `depth`; twice the length of a text is enough for it. -/
def readValue : (depth : Nat) → List Char → Step Datum
  | 0, cs => fail .value cs
  | depth + 1, cs =>
    match cs with
    | '"' :: rest => (readText rest).map fun r => (.str r.1, r.2)
    | '[' :: rest =>
      match skipSpace rest with
      | ']' :: more => .ok (.array [], more)
      | more => (readItems depth more).map fun r => (.array r.1, r.2)
    | '\x7b' :: rest =>
      match skipSpace rest with
      | '\x7d' :: more => .ok (.object [], more)
      | more => (readEntries depth more).map fun r => (.object (Entries.ofList r.1), r.2)
    | _ =>
      match readWord? cs with
      | some r => .ok r
      | none =>
        match readNumber? cs with
        | some r => (checkNumber r.1 cs).map fun _ => (.num r.1, r.2)
        | none => fail .value cs

/-- Reads the items of an array from its first one on. -/
def readItems : (depth : Nat) → List Char → Except Failure (List Datum × List Char)
  | 0, cs => fail .value cs
  | depth + 1, cs => do
    let (item, rest) ← readValue depth cs
    match skipSpace rest with
    | ']' :: more => return ([item], more)
    | ',' :: more =>
      let (items, after) ← readItems depth (skipSpace more)
      return (item :: items, after)
    | more => fail .comma more

/-- Reads the entries of an object from its first one on. -/
def readEntries : (depth : Nat) → List Char → Except Failure (List (Key × Datum) × List Char)
  | 0, cs => fail .name cs
  | depth + 1, cs => do
    match cs with
    | '"' :: rest =>
      let (name, rest) ← readText rest
      match skipSpace rest with
      | ':' :: rest =>
        let (item, rest) ← readValue depth (skipSpace rest)
        match skipSpace rest with
        | '\x7d' :: more => return ([(.str name, item)], more)
        | ',' :: more =>
          let (entries, after) ← readEntries depth (skipSpace more)
          return ((.str name, item) :: entries, after)
        | more => fail .comma more
      | more => fail .colon more
    | _ => fail .name cs

end

/-- Reads a whole text: one value with blanks around it. -/
def readAll (cs : List Char) : Except Failure Datum := do
  if cs.head? == some (Char.ofNat 0xfeff) then throw ⟨.byteOrderMark, cs.length⟩
  let (d, rest) ← readValue (2 * cs.length + 2) (skipSpace cs)
  let rest := skipSpace rest
  if rest.isEmpty then return d else throw ⟨.extra, rest.length⟩

/-- Reads a JSON text. -/
def read (s : String) : Except Error Datum :=
  match readAll s.toList with
  | .ok d => .ok d
  | .error f => .error (f.inText s.toList)

end EventScript.Json
