import EventScript.Decimal.Text
import EventScript.Text.Blank
import EventScript.Text.Digit

/-!
# Numbers

Whole numbers of any size and binary floating point numbers, side by side. A whole number and a floating point
number are compared by their exact values. Arithmetic on whole numbers is exact; once a floating point number
takes part, both operands become floating point, which fails for a whole number past the largest one.

A NaN carries the mark of where it came from: no two are equal as numbers, but one that is read twice is the
same value.
-/

namespace EventScript

inductive Number where
  | int (n : Int)
  /-- A floating point number other than NaN. -/
  | float (x : Float)
  | nan (origin : Nat)
  deriving DecidableEq, Inhabited

namespace Number

/-- The NaN that stands for "no number", in readings and in undefined quotients. -/
def undefinedNan : Number := .nan 0

/-- A floating point result as a number; a NaN gets the given mark. -/
def ofFloat (origin : Nat) (x : Float) : Number := if x.isNaN then .nan origin else .float x

def infinity (negative : Bool) : Number :=
  .float (if negative then -(1.0 / 0.0) else 1.0 / 0.0)

/-- Why arithmetic fails. -/
inductive Overflow where
  | operand
  | quotient
  deriving Repr, DecidableEq

def Overflow.message : Overflow → String
  | .operand => "int too large to convert to float"
  | .quotient => "integer division result too large for a float"

/-- Why a whole number and its text are kept apart: it has more than `Decimal.maxDigits` digits, to be written or
in the text that is read. -/
inductive TooLong where
  | writing
  | reading (count : Nat)
  deriving Repr, DecidableEq

def TooLong.message : TooLong → String
  | .writing =>
    "Exceeds the limit (" ++ toString Decimal.maxDigits ++ " digits) for integer string conversion; "
      ++ "use sys.set_int_max_str_digits() to increase the limit"
  | .reading count =>
    "Exceeds the limit (" ++ toString Decimal.maxDigits ++ " digits) for integer string conversion: value has "
      ++ toString count ++ " digits; use sys.set_int_max_str_digits() to increase the limit"

/-- Refuses the digits of a whole number that are too many to be read; zeros before it count. -/
def TooLong.check (digits : List Char) : Except TooLong Unit :=
  if Decimal.maxDigits < digits.length then .error (.reading digits.length) else .ok ()

/-- The exact value of a number. -/
inductive Exact where
  | nan
  | infinite (negative : Bool)
  /-- The fraction `num / den` with a positive denominator. -/
  | ratio (num : Int) (den : Nat)

def exact : Number → Exact
  | .int n => .ratio n 1
  | .nan _ => .nan
  | .float x =>
    match Decimal.parts x with
    | .nan => .nan
    | .infinite negative => .infinite negative
    | .finite negative m e =>
      let q := Decimal.scaleTwo m e
      .ratio (if negative then -q.1 else q.1) q.2

/-- The order of two exact values; a NaN has none. -/
def Exact.order? : Exact → Exact → Option Ordering
  | .nan, _ | _, .nan => none
  | .infinite a, .infinite b => some (if a == b then .eq else if a then .lt else .gt)
  | .infinite a, .ratio _ _ => some (if a then .lt else .gt)
  | .ratio _ _, .infinite b => some (if b then .gt else .lt)
  | .ratio p q, .ratio r s => some (compare (p * s) (r * q))

/-- The order of two numbers by their exact values. -/
def order? (a b : Number) : Option Ordering := a.exact.order? b.exact

/-- Numeric equality: a NaN equals nothing. -/
def eqv (a b : Number) : Bool := a.order? b == some .eq

def isZero (a : Number) : Bool := a.eqv (.int 0)

def isNan : Number → Bool
  | .nan _ => true
  | _ => false

/-- An infinity, with its sign. -/
def infinite? : Number → Option Bool
  | .float x => if x.isInf then some (x < 0) else none
  | _ => none

/-- The floating point number nearest to a number. -/
def toFloat : Number → Except Overflow Float
  | .int n =>
    match Decimal.ofInt? n with
    | some x => .ok x
    | none => .error .operand
  | .float x => .ok x
  | .nan _ => .ok (0.0 / 0.0)

/-- Asks of a number what can be asked only of one in the range of floating point numbers. -/
def inRange (a : Number) : Except Overflow Unit := do
  let _ ← a.toFloat

/-- A whole number in the range of floating point numbers is short enough to be written. -/
theorem inRange_short {n : Int} (h : (int n).inRange = .ok ()) : Decimal.isLong n = false := by
  rw [Bool.eq_false_iff]
  intro hlong
  have hpow (m : Nat) : 2 ^ m ≤ Nat.pow 10 m := Nat.pow_le_pow_left (by decide) m
  have hle : 2 ^ Decimal.maxDigits ≤ n.natAbs := Nat.le_trans (hpow _) (Decimal.isLong_iff.mp hlong)
  have hpos : n.natAbs ≠ 0 := Nat.ne_of_gt (Nat.lt_of_lt_of_le (Nat.two_pow_pos _) hle)
  have hhuge : Decimal.maxDigits ≤ n.natAbs.log2 := (Nat.le_log2 hpos).mpr hle
  rw [inRange, toFloat, Decimal.ofInt?_huge (Nat.le_trans (by decide) hhuge)] at h
  cases h

/-- A floating point operation on two numbers. -/
def viaFloat (origin : Nat) (f : Float → Float → Float) (a b : Number) : Except Overflow Number := do
  let x ← a.toFloat
  let y ← b.toFloat
  return ofFloat origin (f x y)

def add (origin : Nat) : Number → Number → Except Overflow Number
  | .int m, .int n => .ok (.int (m + n))
  | a, b => viaFloat origin (· + ·) a b

def sub (origin : Nat) : Number → Number → Except Overflow Number
  | .int m, .int n => .ok (.int (m - n))
  | a, b => viaFloat origin (· - ·) a b

def mul (origin : Nat) : Number → Number → Except Overflow Number
  | .int m, .int n => .ok (.int (m * n))
  | a, b => viaFloat origin (· * ·) a b

def neg (origin : Nat) : Number → Number
  | .int n => .int (-n)
  | .float x => .float (-x)
  | .nan _ => .nan origin

/-- The quotient. A zero divisor gives an infinity with the sign of the dividend, or no number when the
dividend is zero or none itself. Whole numbers that divide evenly have a whole quotient. -/
def div (origin : Nat) (a b : Number) : Except Overflow Number := do
  if b.isZero then
    if a.isZero then return undefinedNan
    a.inRange
    if a.isNan then return undefinedNan
    return infinity (a.order? (.int 0) == some .lt)
  match a, b with
  | .int m, .int n =>
    if Int.tmod m n == 0 then return .int (Int.tdiv m n)
    let x := Decimal.nearest ((m < 0) != (n < 0)) m.natAbs n.natAbs
    if x.isInf then throw .quotient
    return .float x
  | a, b => viaFloat origin (· / ·) a b

/-- The exact remainder of two finite fractions over a common denominator, with the sign of the first. -/
def floatRemainder (x y : Float) : Float :=
  match Decimal.parts x, Decimal.parts y with
  | .finite negative m e, .finite _ m' e' =>
    let low := min e e'
    let p := m * Nat.pow 2 (e - low).toNat
    let q := m' * Nat.pow 2 (e' - low).toNat
    let s := Decimal.scaleTwo (p % q) low
    Decimal.nearest negative s.1 s.2
  | _, _ => x

/-- The remainder, with the sign of the dividend; no number for a zero divisor, a NaN or an infinite
dividend. -/
def mod (a b : Number) : Except Overflow Number := do
  if b.isZero then return undefinedNan
  a.inRange
  if a.isNan then return undefinedNan
  b.inRange
  if b.isNan || a.infinite?.isSome then return undefinedNan
  match a, b with
  | .int m, .int n => return .int (Int.tmod m n)
  | a, b =>
    let x ← a.toFloat
    let y ← b.toFloat
    return .float (floatRemainder x y)

/-- Why a number has no whole part. -/
inductive NotWhole where
  | ofNan
  | ofInfinity
  deriving Repr, DecidableEq

def NotWhole.message : NotWhole → String
  | .ofNan => "cannot convert float NaN to integer"
  | .ofInfinity => "cannot convert float infinity to integer"

/-- The whole part of a number, toward zero. -/
def truncate : Number → Except NotWhole Int
  | .int n => .ok n
  | .nan _ => .error .ofNan
  | .float x =>
    match Decimal.truncate? x with
    | some n => .ok n
    | none => .error .ofInfinity

/-- Whether a number is whole, in either representation. -/
def isWhole : Number → Bool
  | .int _ => true
  | .nan _ => false
  | .float x => Decimal.isWhole x

/-- Whether a number is a whole one with too many digits to be written. A floating point number never is. -/
def isLong : Number → Bool
  | .int n => Decimal.isLong n
  | _ => false

/-- The plain text of a number: a whole one below `10 ^ 21` without point or exponent. This is the text of a whole
number of any size; the program asks `isLong` before it writes one. -/
def text : Number → String
  | .int n => Decimal.intText n
  | .nan _ => "NaN"
  | .float x =>
    if x.isInf then (if x < 0 then "-Infinity" else "Infinity")
    else if Decimal.isWhole x && x.abs < 1e21 then
      Decimal.intText ((Decimal.truncate? x).getD 0)
    else Decimal.floatText x

/-- The text that shows the representation: a floating point number has a point or an exponent. -/
def literalText : Number → String
  | .int n => Decimal.intText n
  | .nan _ => "nan"
  | .float x => Decimal.floatText x

/-! ### Reading -/

/-- A sign, and the rest. -/
def splitSign : List Char → Bool × List Char
  | '+' :: rest => (false, rest)
  | '-' :: rest => (true, rest)
  | cs => (false, cs)

/-- The exponent part of a decimal: empty, or a letter `e`, a sign and digits up to the end. -/
def readExponent : List Char → Option Int
  | [] => some 0
  | c :: rest =>
    if c == 'e' || c == 'E' then
      let (negative, ds) := splitSign rest
      if ds.isEmpty || !ds.all Text.isDecimal then none
      else
        let n : Int := Text.digitsValue ds
        some (if negative then -n else n)
    else none

/-- A decimal without sign: digits with at most one point among or around them, then an exponent. -/
def readDecimal (negative : Bool) (cs : List Char) : Option Float :=
  let whole := cs.takeWhile Text.isDecimal
  let rest := cs.dropWhile Text.isDecimal
  let (places, rest) :=
    match rest with
    | '.' :: more => (more.takeWhile Text.isDecimal, more.dropWhile Text.isDecimal)
    | _ => ([], rest)
  if whole.isEmpty && places.isEmpty then none
  else (readExponent rest).map fun e =>
    Decimal.ofDecimal negative (Text.digitsValue (whole ++ places)) (e - places.length)

/-- Refuses a text that is a whole number with too many digits. -/
def checkText (s : String) : Except TooLong Unit :=
  let body := (splitSign (Text.trimChars Text.isBlank s.toList)).2
  if body.all Text.isDecimal then TooLong.check body else .ok ()

/-- Reads a decimal number of any script, with blanks around it. Digits alone are a whole number; what is
neither a number nor an infinity is no number. There may be any number of digits; the program asks `checkText` before
it reads a text. -/
def read (s : String) : Number :=
  let cs := Text.trimChars Text.isBlank s.toList
  let (negative, body) := splitSign cs
  if !body.isEmpty && body.all Text.isDecimal then
    let n : Int := Text.digitsValue body
    .int (if negative then -n else n)
  else match readDecimal negative body with
    | some x => .float x
    | none => if body == "Infinity".toList then infinity negative else undefinedNan

end Number

end EventScript
