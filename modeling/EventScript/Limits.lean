import EventScript.Fault

/-!
# Limits

The ceilings that guard against runaway scripts and unbounded data, and the settings that change them.
-/

namespace EventScript

/-- The ceilings of a world. They are taken to be short enough to be written where a message names them. -/
structure Limits where
  /-- Actions in one run. -/
  actions : Int := 1000
  /-- Frames on the call stack where a block begins. -/
  stack : Int := 30
  /-- Elements of an array. -/
  arraySize : Int := 10000
  /-- Handles followed one after the other. -/
  handleDepth : Int := 5
  /-- Paths spelled by texts inside paths spelled by texts. -/
  derefDepth : Int := 5
  /-- Frames above which a failure no longer becomes an error event. -/
  errorStack : Int := 20
  deriving DecidableEq, Repr, Inhabited

/-- Digits with single underscores between them. -/
def digitsOf? : List Char → Option (List Char)
  | [] => none
  | [c] => if Text.isDecimal c then some [c] else none
  | c :: '_' :: rest => if Text.isDecimal c then (digitsOf? rest).map (c :: ·) else none
  | c :: rest => if Text.isDecimal c then (digitsOf? rest).map (c :: ·) else none

/-- The whole number a setting spells: blanks around it, a sign, and not too many digits of any script, which
underscores may separate. -/
def readWhole? (s : String) : Option Int :=
  let (negative, body) := Number.splitSign (Text.trimChars Text.isBlank s.toList)
  (digitsOf? body).bind fun ds =>
    let n : Int := Text.digitsValue ds
    if Decimal.maxDigits < ds.length then none else some (if negative then -n else n)

/-- A ceiling from its setting; a blank setting is none. -/
def readCeiling (name : String) (base : Int) (raw : Option String) : Except Fault Int :=
  match raw with
  | none => .ok base
  | some raw =>
    if (Text.strip raw).isEmpty then .ok base
    else match readWhole? raw with
      | some n => .ok n
      | none => .error (.setting name (Text.quoted raw))

/-- The limits under the given settings. -/
def Limits.ofSettings (setting : String → Option String) : Except Fault Limits := do
  let base : Limits := {}
  let actions ← readCeiling "HIBIKI_MAX_ACTIONS" base.actions (setting "HIBIKI_MAX_ACTIONS")
  let stack ← readCeiling "HIBIKI_MAX_STACK" base.stack (setting "HIBIKI_MAX_STACK")
  let arraySize ← readCeiling "HIBIKI_MAX_ARRAY_SIZE" base.arraySize (setting "HIBIKI_MAX_ARRAY_SIZE")
  return { base with actions, stack, arraySize }

/-- Whether the settings ask for debug lines. -/
def debugSetting (setting : String → Option String) : Bool :=
  (setting "HIBIKI_DEBUG").any fun s => !s.isEmpty

end EventScript
