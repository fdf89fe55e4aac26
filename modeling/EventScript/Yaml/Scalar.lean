import EventScript.Number
import EventScript.Text.Base64
import EventScript.Text.Case
import EventScript.Yaml.Timestamp

/-!
# The values of scalars

What a text spells as a value of its type. Underscores in numbers mean nothing, and parts between colons are the
digits of a number in base sixty.
-/

namespace EventScript.Yaml

inductive Scalar where
  | null
  | bool (b : Bool)
  | num (n : Number)
  | str (s : String)
  | timestamp (t : Timestamp)
  | bytes (bs : List UInt8)

namespace Scalar

/-- Parts of a text between colons. -/
def splitColons (cs : List Char) : List (List Char) :=
  match cs with
  | [] => [[]]
  | ':' :: rest => [] :: splitColons rest
  | c :: rest =>
    match splitColons rest with
    | [] => [[c]]
    | part :: parts => (c :: part) :: parts

/-- The value of a digit in a base of at most sixteen. -/
def digitIn? (base : Nat) (c : Char) : Option Nat :=
  ((Text.digitValue? c).orElse fun _ => hexLetter? c).filter (· < base)
where
  hexLetter? (c : Char) : Option Nat :=
    if 'a' ≤ c && c ≤ 'f' then some (c.toNat - 87)
    else if 'A' ≤ c && c ≤ 'F' then some (c.toNat - 55)
    else none

/-- The letter after a zero that announces a base. -/
def baseLetter? : Nat → Option Char
  | 2 => some 'b'
  | 8 => some 'o'
  | 16 => some 'x'
  | _ => none

/-- A whole number in a base, with a sign and blanks around it. In base ten it must not have too many digits. -/
def readWhole (base : Nat) (cs : List Char) : Except Refusal Int := do
  let (negative, body) := Number.splitSign (Text.trimChars Text.isBlank cs)
  if base == 10 then (Number.TooLong.check (body.takeWhile Text.isDecimal)).mapError .tooLong
  let body := match body with
    | '0' :: letter :: rest => if baseLetter? base == some letter.toLower then rest else body
    | _ => body
  match body.mapM (digitIn? base) with
  | some (d :: ds) =>
    let n := (d :: ds).foldl (fun n d => base * n + d) 0
    .ok (if negative then -(n : Int) else n)
  | _ => .error (.notWhole base (String.ofList cs))

/-- The number with some digits in base sixty, the first one first. -/
def sexagesimal (digits : List Int) : Int := digits.foldl (fun n d => 60 * n + d) 0

/-- A text without underscores, split into its sign and the rest. -/
def splitNumber (text : String) : Except Refusal (Bool × List Char) :=
  match text.toList.filter (· != '_') with
  | [] => .error .emptyNumber
  | cs => .ok (Number.splitSign cs)

/-- A whole number: in base two, sixteen, eight, sixty or ten. -/
def readInt (text : String) : Except Refusal Int := do
  let (negative, body) ← splitNumber text
  let n ← match body with
    | [] => throw .emptyNumber
    | ['0'] => pure 0
    | '0' :: 'b' :: rest => readWhole 2 rest
    | '0' :: 'x' :: rest => readWhole 16 rest
    | '0' :: _ => readWhole 8 body
    | _ =>
      if body.contains ':' then return signed negative (sexagesimal (← (splitColons body).mapM (readWhole 10)))
      else readWhole 10 body
  return signed negative n
where
  signed (negative : Bool) (n : Int) : Int := if negative then -n else n

/-- The mark of a NaN that a text spells. -/
def nanOrigin : Nat := 2

/-- A decimal, an infinity or no number, with blanks around it. -/
def readFloat (cs : List Char) : Except Refusal Float :=
  let (negative, body) := Number.splitSign (Text.trimChars Text.isBlank cs)
  let infinite : Float := if negative then -(1.0 / 0.0) else 1.0 / 0.0
  match String.ofList body with
  | "inf" | "infinity" => .ok infinite
  | "nan" => .ok (0.0 / 0.0)
  | _ =>
    match Number.readDecimal negative body with
    | some x => .ok x
    | none => .error (.notDecimal (String.ofList cs))

/-- The floating point number with some digits in base sixty, added up from the last one on. -/
def sexagesimalFloat (digits : List Float) : Float :=
  digits.reverse.zipIdx.foldl (fun x d => x + d.1 * Decimal.nearest false (Nat.pow 60 d.2) 1) 0.0

/-- A floating point number: a decimal, one in base sixty, an infinity or no number. -/
def readNumber (text : String) : Except Refusal Number := do
  let (negative, body) ← splitNumber (Text.lower text)
  let x ← match String.ofList body with
    | ".inf" => pure (1.0 / 0.0)
    | ".nan" => return .nan nanOrigin
    | _ =>
      if body.contains ':' then
        pure (sexagesimalFloat (← (splitColons body).mapM readFloat))
      else readFloat body
  return Number.ofFloat nanOrigin (if negative then -x else x)

def readBool (text : String) : Except Refusal Bool :=
  let word := Text.lower text
  match Tag.truthWords.lookup word with
  | some b => .ok b
  | none => .error (.notTruth word)

def readBytes (text : String) : Except Refusal (List UInt8) :=
  match Text.Base64.decode text.toList with
  | .ok bs => .ok bs
  | .error _ => .error .malformed

/-- The value of a text of a type; only types of scalars have one. -/
def read (tag : Tag) (text : String) : Except Refusal Scalar :=
  match tag with
  | .null => .ok .null
  | .bool => (readBool text).map .bool
  | .int => (readInt text).map fun n => .num (.int n)
  | .float => (readNumber text).map .num
  | .binary => (readBytes text).map .bytes
  | .timestamp => (Timestamp.read text).map .timestamp
  | .str => .ok (.str text)
  | _ => .error .malformed

end Scalar

end EventScript.Yaml
