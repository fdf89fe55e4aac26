import EventScript.Decimal.Text
import EventScript.Text.Digit
import EventScript.Yaml.Refusal
import EventScript.Yaml.Tag

/-!
# Timestamps

Days of the calendar and times on them, perhaps with an offset from universal time.
-/

namespace EventScript.Yaml

/-- A time on a day: down to millionths of a second, and the offset in minutes if there is one. -/
structure Time where
  hour : Nat
  minute : Nat
  second : Nat
  micro : Nat
  offset : Option Int
  deriving DecidableEq, Repr

structure Timestamp where
  year : Nat
  month : Nat
  day : Nat
  time : Option Time := none
  deriving DecidableEq, Repr

namespace Timestamp

def isLeap (year : Nat) : Bool := year % 4 == 0 && (year % 100 != 0 || year % 400 == 0)

def daysIn (year month : Nat) : Nat :=
  match month with
  | 2 => if isLeap year then 29 else 28
  | 4 | 6 | 9 | 11 => 30
  | _ => 31

/-- The first part that is out of its range. -/
def fault? (t : Timestamp) : Option Calendar :=
  let offset? := t.time.bind (·.offset)
  let beyond := offset?.filter fun m => 1440 ≤ m.natAbs
  match beyond, t.time with
  | some m, _ => some (.offset m)
  | none, time =>
    if t.year == 0 then some (.year 0)
    else if t.month == 0 || 12 < t.month then some .month
    else if t.day == 0 || daysIn t.year t.month < t.day then some .day
    else match time with
      | none => none
      | some c =>
        if 23 < c.hour then some .hour
        else if 59 < c.minute then some .minute
        else if 59 < c.second then some .second
        else none

/-- The parts of a timestamp: date, time, fraction, then the offset, its sign, hours and minutes. -/
def parts : Pattern.Pat := Tag.known
  ("^([0-9][0-9][0-9][0-9])-([0-9][0-9]?)-([0-9][0-9]?)(?:(?:[Tt]|[ \\t]+)"
    ++ "([0-9][0-9]?):([0-9][0-9]):([0-9][0-9])(?:\\.([0-9]*))?"
    ++ "(?:[ \\t]*(Z|([-+])([0-9][0-9]?)(?::([0-9][0-9]))?))?)?$")

/-- The number in millionths that the digits after a point spell; digits past the sixth are dropped. -/
def millionths (digits : List Char) : Nat :=
  let ds := digits.take 6
  Text.digitsValue (ds ++ List.replicate (6 - ds.length) '0')

def read (text : String) : Except Refusal Timestamp := do
  match Pattern.search parts 11 text with
  | some [_, some year, some month, some day, hour, minute, second, fraction, zone, sign, hours, minutes] =>
    let number (s : Option String) : Nat := Text.digitsValue (s.getD "").toList
    let offset : Option Int := match zone, sign with
      | none, _ => none
      | some _, none => some 0
      | some _, some sign =>
        let m : Int := number hours * 60 + number minutes
        some (if sign == "-" then -m else m)
    let time := hour.map fun h =>
      { hour := number h, minute := number minute, second := number second
        micro := millionths (fraction.getD "").toList, offset : Time }
    let t : Timestamp :=
      { year := number year, month := number month, day := number day, time }
    match t.fault? with
    | some c => throw (.calendar c)
    | none => return t
  | _ => throw .notTimestamp

/-! ### Texts -/

def pad (width n : Nat) : String := String.ofList (Text.padLeft width '0' (Decimal.natText n))

/-- An offset as hours and minutes with a sign. -/
def offsetText (minutes : Int) : String :=
  (if minutes < 0 then "-" else "+") ++ pad 2 (minutes.natAbs / 60) ++ ":" ++ pad 2 (minutes.natAbs % 60)

/-- The timestamp in figures, as it stands for itself. -/
def text (t : Timestamp) : String :=
  let date := pad 4 t.year ++ "-" ++ pad 2 t.month ++ "-" ++ pad 2 t.day
  match t.time with
  | none => date
  | some c =>
    date ++ " " ++ pad 2 c.hour ++ ":" ++ pad 2 c.minute ++ ":" ++ pad 2 c.second
      ++ (if c.micro == 0 then "" else "." ++ pad 6 c.micro)
      ++ (c.offset.map offsetText).getD ""

/-- The class of a timestamp: a day alone is a date. -/
def typeName (t : Timestamp) : String := if t.time.isSome then "datetime" else "date"

/-- The timestamp as a call that makes it; seconds and millionths that are zero are left out. -/
def literal (t : Timestamp) : String :=
  let numbers := match t.time with
    | none => []
    | some c =>
      [c.hour, c.minute]
        ++ (if c.second == 0 && c.micro == 0 then [] else [c.second])
        ++ (if c.micro == 0 then [] else [c.micro])
  let zone := match t.time.bind (·.offset) with
    | none => []
    | some 0 => ["tzinfo=datetime.timezone.utc"]
    | some m => ["tzinfo=datetime.timezone(" ++ spanText m ++ ")"]
  "datetime." ++ t.typeName ++ "("
    ++ String.intercalate ", " (([t.year, t.month, t.day] ++ numbers).map toString ++ zone) ++ ")"

end Timestamp

end EventScript.Yaml
