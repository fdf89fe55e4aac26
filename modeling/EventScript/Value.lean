import EventScript.Key

/-!
# Values

Null, truth values, numbers and texts are plain. Everything else a script can hold is a reference to an object
of the store, so that two values are the same when they are equal. A value that was not supplied at all is
apart from null.
-/

namespace EventScript

abbrev ArrayId := Nat
abbrev ObjectId := Nat
abbrev ViewId := Nat
abbrev BlobId := Nat
abbrev LambdaId := Nat
abbrev NodeListId := Nat
abbrev ErrorId := Nat
abbrev HandleId := Nat
abbrev ForeignId := Nat
abbrev CellId := Nat
abbrev ScopeId := Nat

inductive Value where
  | null
  | bool (b : Bool)
  | num (n : Number)
  | str (s : String)
  /-- The mark of an argument or attribute that was not supplied. -/
  | absent
  | array (a : ArrayId)
  | object (o : ObjectId)
  /-- The context of a scope and its ancestors, seen as one object. -/
  | context (c : ViewId)
  | blob (b : BlobId)
  | lambda (l : LambdaId)
  | nodes (n : NodeListId)
  | error (e : ErrorId)
  | handle (h : HandleId)
  /-- An object of the host that scripts only pass around. -/
  | foreign (f : ForeignId)
  deriving DecidableEq, Inhabited

/-- The five kinds of values. -/
inductive Kind where
  | null
  | primitive
  | array
  | object
  | special
  deriving DecidableEq, Repr

def Kind.name : Kind → String
  | .null => "null"
  | .primitive => "primitive"
  | .array => "array"
  | .object => "object"
  | .special => "special"

namespace Value

def int (n : Int) : Value := .num (.int n)

def kind : Value → Kind
  | .null => .null
  | .bool _ | .num _ | .str _ => .primitive
  | .array _ => .array
  | .object _ | .context _ => .object
  | _ => .special

/-- Null or absent. -/
def isNull : Value → Bool
  | .null | .absent => true
  | _ => false

/-- The value with absence turned into null. -/
def orNull : Value → Value
  | .absent => .null
  | v => v

/-- The number that a truth value counts as. -/
def ofBool (b : Bool) : Number := .int (if b then 1 else 0)

/-- The number a value counts as, however long it is. A text is read; null and an absent value are zero; arrays, objects
and special values are no number. -/
def toNumber : Value → Number
  | .null | .absent => .int 0
  | .bool b => ofBool b
  | .num n => n
  | .str s => Number.read s
  | _ => Number.undefinedNan

/-- Refuses a text that counts as a whole number with too many digits. -/
def checkNumber : Value → Except Number.TooLong Unit
  | .str s => Number.checkText s
  | _ => .ok ()

/-- Whether a value is a number with too many digits to be written. -/
def isLong : Value → Bool
  | .num n => n.isLong
  | _ => false

/-- Whether a value counts as true. Null, absent, zero, NaN and the empty text do not; a whole number past
the largest floating point number cannot be asked. -/
def toBool : Value → Except Number.Overflow Bool
  | .null | .absent => .ok false
  | .bool b => .ok b
  | .num n =>
    if n.isZero then .ok false
    else do
      n.inRange
      return !n.isNan
  | .str s => .ok (s != "")
  | _ => .ok true

/-- A key as a value. -/
def ofKey : Key → Value
  | .null => .null
  | .bool b => .bool b
  | .num n => .num n
  | .str s => .str s
  | .foreign place _ => .foreign place

end Value

end EventScript
