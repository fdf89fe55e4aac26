import EventScript.Number
import EventScript.Text.Quoted
import EventScript.Text.Case

/-!
# Format strings

Templates in which a percent sign begins a conversion and two stand for one: flags, a width, a precision, a
length letter without meaning, and the letter of the conversion. Each conversion takes one argument, and a star in
the place of width or precision takes one more; in the end none may be left.
-/

namespace EventScript.Printf

/-- An argument of a conversion. -/
inductive Arg where
  | bool (b : Bool)
  | num (n : Number)
  | str (s : String)
  deriving Inhabited

/-- Why formatting fails. -/
inductive Error where
  | mappingKey
  | starNotWhole
  /-- A whole number for a star that a machine word of some type does not hold. -/
  | starRange (wordType : String)
  | incomplete
  | tooFew
  | tooMany
  | unsupported (letter : Char) (place : Nat)
  | notNumber (letter : Char)
  | notWhole (letter : Char) (typeName : String)
  | notReal
  | notChar
  | charRange
  | widthRange
  | precisionRange
  /-- A width that no memory has room for. -/
  | noRoom
  | truncation (e : Number.NotWhole)
  | overflow (e : Number.Overflow)
  | digits (e : Number.TooLong)
  deriving Repr, DecidableEq

/-- The class of an error, as messages name it. -/
def Error.typeName : Error → String
  | .incomplete | .unsupported .. | .widthRange | .precisionRange | .truncation .ofNan | .digits _ => "ValueError"
  | .starRange _ | .charRange | .overflow _ | .truncation .ofInfinity => "OverflowError"
  | .noRoom => "MemoryError"
  | _ => "TypeError"

def Error.message : Error → String
  | .mappingKey => "format requires a mapping"
  | .starNotWhole => "* wants int"
  | .starRange wordType => "Python int too large to convert to C " ++ wordType
  | .incomplete => "incomplete format"
  | .tooFew => "not enough arguments for format string"
  | .tooMany => "not all arguments converted during string formatting"
  | .unsupported c place =>
    let shown := if 31 ≤ c.toNat && c.toNat ≤ 126 then c else '?'
    "unsupported format character '" ++ shown.toString ++ "' (0x"
      ++ String.ofList (Text.baseDigits 16 c.toNat) ++ ") at index " ++ toString place
  | .notNumber c => "%" ++ c.toString ++ " format: a real number is required, not str"
  | .notWhole c name => "%" ++ c.toString ++ " format: an integer is required, not " ++ name
  | .notReal => "must be real number, not str"
  | .notChar => "%c requires int or char"
  | .charRange => "%c arg not in range(0x110000)"
  | .widthRange => "width too big"
  | .precisionRange => "precision too big"
  | .noRoom => ""
  | .truncation e => e.message
  | .overflow e => e.message
  | .digits e => e.message

structure Flags where
  left : Bool := false
  sign : Bool := false
  blank : Bool := false
  alt : Bool := false
  zero : Bool := false

/-- A conversion without its letter. -/
structure Spec where
  flags : Flags := {}
  width : Option Nat := none
  precision : Option Nat := none

/-- Sets the flag a character stands for. -/
def Flags.set? (f : Flags) : Char → Option Flags
  | '-' => some { f with left := true }
  | '+' => some { f with sign := true }
  | ' ' => some { f with blank := true }
  | '#' => some { f with alt := true }
  | '0' => some { f with zero := true }
  | _ => none

def readFlags (f : Flags) : List Char → Flags × List Char
  | [] => (f, [])
  | c :: rest =>
    match f.set? c with
    | some f' => readFlags f' rest
    | none => (f, c :: rest)

/-- Takes the next argument. -/
def nextArg : List Arg → Except Error (Arg × List Arg)
  | [] => .error .tooFew
  | a :: rest => .ok (a, rest)

/-- A whole number for a star: one that fits a machine word of some bits. -/
def starValue (bits : Nat) (wordType : String) : Arg → Except Error Int
  | .num (.int n) =>
    let bound : Int := Nat.pow 2 (bits - 1)
    if -bound ≤ n && n < bound then .ok n else .error (.starRange wordType)
  | .bool b => .ok (if b then 1 else 0)
  | _ => .error .starNotWhole

/-- Reads a width: digits, or a star. -/
def readWidth (s : Spec) (cs : List Char) (args : List Arg) :
    Except Error (Spec × List Char × List Arg) :=
  match cs with
  | '*' :: rest => do
    let (a, args) ← nextArg args
    let n ← starValue 64 "ssize_t" a
    let flags := if n < 0 then { s.flags with left := true } else s.flags
    return ({ s with width := some n.natAbs, flags }, rest, args)
  | _ => do
    let ds := cs.takeWhile Char.isDigit
    if ds.isEmpty then return (s, cs, args)
    let n := Text.digitsValue ds
    if Nat.pow 2 63 ≤ n then throw .widthRange
    return ({ s with width := some n }, cs.drop ds.length, args)

/-- Reads a precision after its point: digits, a star, or nothing for zero. -/
def readPrecision (s : Spec) (cs : List Char) (args : List Arg) :
    Except Error (Spec × List Char × List Arg) :=
  match cs with
  | '.' :: '*' :: rest => do
    let (a, args) ← nextArg args
    let n ← starValue 32 "int" a
    return ({ s with precision := some n.toNat }, rest, args)
  | '.' :: rest => do
    let ds := rest.takeWhile Char.isDigit
    let n := Text.digitsValue ds
    if Nat.pow 2 31 ≤ n then throw .precisionRange
    return ({ s with precision := some n }, rest.drop ds.length, args)
  | _ => .ok (s, cs, args)

/-- Passes over a length letter. -/
def skipLength : List Char → List Char
  | 'h' :: rest | 'l' :: rest | 'L' :: rest => rest
  | cs => cs

/-- The text of an argument on its own. -/
def Arg.text : Arg → String
  | .bool b => if b then "True" else "False"
  | .num n => n.literalText
  | .str s => s

/-- The text of an argument as it would stand in a script. -/
def Arg.quoted (ascii : Bool) : Arg → String
  | .str s => if ascii then Text.quotedAscii s else Text.quoted s
  | a => a.text

/-- Refuses a whole number with too many digits to be written. -/
def checkWritten (long : Bool) : Except Error Unit := if long then .error (.digits .writing) else .ok ()

/-- Whether an argument is a whole number with too many digits to be written. -/
def Arg.isLong : Arg → Bool
  | .num n => n.isLong
  | _ => false

/-- Lays a text out in its width, blanks on the left unless the flags say otherwise. -/
def padText (s : Spec) (cs : List Char) : List Char :=
  let fill := List.replicate ((s.width.getD 0) - cs.length) ' '
  if s.flags.left then cs ++ fill else fill ++ cs

/-- Lays a number out in its width: the sign, the mark of its base, and the digits, with zeros or blanks. -/
def padNumber (s : Spec) (negative : Bool) (mark digits : List Char) : List Char :=
  let sign :=
    if negative then ['-'] else if s.flags.sign then ['+'] else if s.flags.blank then [' '] else []
  let front := sign ++ mark
  let missing := (s.width.getD 0) - (front.length + digits.length)
  if s.flags.left then front ++ digits ++ List.replicate missing ' '
  else if s.flags.zero then front ++ List.replicate missing '0' ++ digits
  else List.replicate missing ' ' ++ front ++ digits

/-- The whole number of a conversion in base ten. -/
def wholeArg (letter : Char) : Arg → Except Error Int
  | .num n =>
    match n.truncate with
    | .ok i => .ok i
    | .error e => .error (.truncation e)
  | .bool b => .ok (if b then 1 else 0)
  | .str _ => .error (.notNumber letter)

/-- The whole number of a conversion in another base, which takes no floating point number. -/
def baseArg (letter : Char) : Arg → Except Error Int
  | .num (.int n) => .ok n
  | .num _ => .error (.notWhole letter "float")
  | .bool b => .ok (if b then 1 else 0)
  | .str _ => .error (.notWhole letter "str")

/-- The floating point number of a conversion. -/
def realArg : Arg → Except Error Float
  | .num n =>
    match n.toFloat with
    | .ok x => .ok x
    | .error e => .error (.overflow e)
  | .bool b => .ok (if b then 1.0 else 0.0)
  | .str _ => .error .notReal

/-- The digits of a whole number, with zeros up to the precision. -/
def wholeDigits (s : Spec) (base : Nat) (n : Int) : List Char :=
  Text.padLeft (s.precision.getD 0) '0' (Text.baseDigits base n.natAbs)

/-- The digits of a finite number in one of the three layouts. -/
def realDigits (s : Spec) (letter : Char) (m : Nat) (e : Int) : List Char :=
  let places := s.precision.getD 6
  match letter.toLower with
  | 'e' => Decimal.scientificText m e places s.flags.alt
  | 'f' =>
    let body := Decimal.fixedText m e places
    if s.flags.alt && places == 0 then body ++ ['.'] else body
  | _ => Decimal.generalText m e places s.flags.alt

/-- A floating point number in its layout, in capitals for a capital letter. -/
def realText (s : Spec) (letter : Char) (x : Float) : List Char :=
  let body := match Decimal.parts x with
    | .nan => (false, ['n', 'a', 'n'])
    | .infinite negative => (negative, ['i', 'n', 'f'])
    | .finite negative m e => (negative, realDigits s letter m e)
  let digits := if letter.isUpper then body.2.map Char.toUpper else body.2
  padNumber s body.1 [] digits

/-- The character of a conversion to one. -/
def charArg : Arg → Except Error Char
  | .str s =>
    match s.toList with
    | [c] => .ok c
    | _ => .error .notChar
  | .num (.int n) => if n < 0 || 0x110000 ≤ n then .error .charRange else .ok (Char.ofNat n.toNat)
  | .num _ => .error .notChar
  | .bool b => .ok (Char.ofNat (if b then 1 else 0))

/-- A text cut to the precision and laid out. -/
def cutText (s : Spec) (t : String) : List Char :=
  padText s (match s.precision with
    | some p => t.toList.take p
    | none => t.toList)

/-- One conversion. -/
def convert (s : Spec) (letter : Char) (place : Nat) (a : Arg) : Except Error (List Char) :=
  match letter with
  | 's' => do
    checkWritten a.isLong
    return cutText s a.text
  | 'r' => do
    checkWritten a.isLong
    return cutText s (a.quoted false)
  | 'a' => do
    checkWritten a.isLong
    return cutText s (a.quoted true)
  | 'd' | 'i' | 'u' => do
    let n ← wholeArg letter a
    checkWritten (Decimal.isLong n)
    return padNumber s (n < 0) [] (wholeDigits s 10 n)
  | 'o' => do
    let n ← baseArg letter a
    return padNumber s (n < 0) (if s.flags.alt then ['0', 'o'] else []) (wholeDigits s 8 n)
  | 'x' => do
    let n ← baseArg letter a
    return padNumber s (n < 0) (if s.flags.alt then ['0', 'x'] else []) (wholeDigits s 16 n)
  | 'X' => do
    let n ← baseArg letter a
    return padNumber s (n < 0) (if s.flags.alt then ['0', 'X'] else [])
      ((wholeDigits s 16 n).map Char.toUpper)
  | 'e' | 'E' | 'f' | 'F' | 'g' | 'G' => do
    let x ← realArg a
    return realText s letter x
  | 'c' => do
    let c ← charArg a
    return padText s [c]
  | _ => .error (.unsupported letter place)

/-- The width from which on a text has no room in memory. -/
def roomLimit : Nat := Nat.pow 2 47

/-- One conversion, whose text must have room in memory. -/
def convertInRoom (s : Spec) (letter : Char) (place : Nat) (a : Arg) : Except Error (List Char) := do
  if roomLimit ≤ s.width.getD 0 then
    let _ ← convert { s with width := none } letter place a
    throw .noRoom
  convert s letter place a

/-- Formats the rest of a template of `total` characters. Each step takes one from `fuel`. -/
def formatFrom (total : Nat) : (fuel : Nat) → List Char → List Arg → Except Error (List Char)
  | 0, _, _ => .ok []
  | _ + 1, [], args => if args.isEmpty then .ok [] else .error .tooMany
  | fuel + 1, '%' :: '%' :: rest, args => (formatFrom total fuel rest args).map ('%' :: ·)
  | fuel + 1, '%' :: rest, args => do
    if rest.head? == some '(' then throw .mappingKey
    let (flags, rest) := readFlags {} rest
    let (s, rest, args) ← readWidth { flags } rest args
    let (s, rest, args) ← readPrecision s rest args
    match skipLength rest with
    | [] => throw .incomplete
    | letter :: rest =>
      let (a, args) ← nextArg args
      let body ← convertInRoom s letter (total - (rest.length + 1)) a
      return body ++ (← formatFrom total fuel rest args)
  | fuel + 1, c :: rest, args => (formatFrom total fuel rest args).map (c :: ·)

/-- Fills a template with arguments. -/
def format (template : String) (args : List Arg) : Except Error String :=
  let cs := template.toList
  (formatFrom cs.length (cs.length + 1) cs args).map String.ofList

end EventScript.Printf
