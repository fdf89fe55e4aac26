import EventScript.Number
import EventScript.Text.Quoted

/-!
# Why a YAML text has no value

Either the text is no YAML, or a scalar does not spell a value of its type. A text that is no YAML is refused as
such, without a reason.
-/

namespace EventScript.Yaml

/-- A part of a date or a time that is out of its range. -/
inductive Calendar where
  | year (n : Nat)
  | month
  | day
  | hour
  | minute
  | second
  /-- An offset from universal time of a day or more, in minutes. -/
  | offset (minutes : Int)
  deriving DecidableEq, Repr

/-- A span of minutes as days and seconds; the seconds are not negative. -/
def spanText (minutes : Int) : String :=
  let days := Int.fdiv minutes 1440
  let seconds := Int.fmod minutes 1440 * 60
  let parts := (if days == 0 then [] else ["days=" ++ toString days])
    ++ (if seconds == 0 then [] else ["seconds=" ++ toString seconds])
  "datetime.timedelta(" ++ String.intercalate ", " parts ++ ")"

def Calendar.message : Calendar → String
  | .year n => "year " ++ toString n ++ " is out of range"
  | .month => "month must be in 1..12"
  | .day => "day is out of range for month"
  | .hour => "hour must be in 0..23"
  | .minute => "minute must be in 0..59"
  | .second => "second must be in 0..59"
  | .offset minutes =>
    "offset must be a timedelta strictly between -timedelta(hours=24) and timedelta(hours=24), not "
      ++ spanText minutes ++ "."

inductive Refusal where
  | malformed
  /-- An escape for a number past the last character. -/
  | codePoint (n : Nat)
  | notTruth (text : String)
  | notWhole (base : Nat) (text : String)
  | notDecimal (text : String)
  | emptyNumber
  | tooLong (cause : Number.TooLong)
  | notTimestamp
  | calendar (cause : Calendar)
  deriving DecidableEq, Repr

/-- The largest number that an escape is compared with the last character by. -/
def largestEscape : Nat := 0x7fffffff

/-- The class of a refusal, as messages name it. -/
def Refusal.typeName : Refusal → String
  | .malformed => "YAMLError"
  | .codePoint n => if n ≤ largestEscape then "ValueError" else "OverflowError"
  | .notTruth _ => "KeyError"
  | .notWhole .. | .notDecimal _ | .calendar _ | .tooLong _ => "ValueError"
  | .emptyNumber => "IndexError"
  | .notTimestamp => "AttributeError"

def Refusal.message : Refusal → String
  | .malformed => "not a YAML text"
  | .codePoint n =>
    if n ≤ largestEscape then "chr() arg not in range(0x110000)"
    else "Python int too large to convert to C int"
  | .notTruth text => Text.quoted text
  | .notWhole base text =>
    "invalid literal for int() with base " ++ toString base ++ ": " ++ Text.quoted text
  | .notDecimal text => "could not convert string to float: " ++ Text.quoted text
  | .emptyNumber => "string index out of range"
  | .tooLong cause => cause.message
  | .notTimestamp => "'NoneType' object has no attribute 'groupdict'"
  | .calendar cause => cause.message

end EventScript.Yaml
