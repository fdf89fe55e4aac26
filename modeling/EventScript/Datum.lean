import EventScript.Key

/-!
# Plain data

Data without sharing, references or special values: what text formats write and, but for repeated anchors,
what they read.
-/

namespace EventScript

inductive Datum where
  | null
  | bool (b : Bool)
  | num (n : Number)
  | str (s : String)
  | array (items : List Datum)
  | object (entries : List (Key × Datum))
  deriving Inhabited

namespace Datum

/-- Whether a datum counts as true where a template asks: not null, false, zero, or empty. -/
def isTruthy : Datum → Bool
  | .null => false
  | .bool b => b
  | .num n => !n.isZero
  | .str s => !s.isEmpty
  | .array items => !items.isEmpty
  | .object entries => !entries.isEmpty

mutual

/-- The text of a datum inside another: texts are quoted. -/
def innerText : Datum → String
  | .null => "None"
  | .bool b => if b then "True" else "False"
  | .num n => n.literalText
  | .str s => Text.quoted s
  | .array items => "[" ++ itemsText items ++ "]"
  | .object entries => "\x7b" ++ entriesText entries ++ "\x7d"

def itemsText : List Datum → String
  | [] => ""
  | [x] => x.innerText
  | x :: rest => x.innerText ++ ", " ++ itemsText rest

def entriesText : List (Key × Datum) → String
  | [] => ""
  | [e] => e.1.label ++ ": " ++ e.2.innerText
  | e :: rest => e.1.label ++ ": " ++ e.2.innerText ++ ", " ++ entriesText rest

end

/-- The field of an object. -/
def field? (d : Datum) (name : String) : Option Datum :=
  match d with
  | .object entries => Entries.get? (.str name) entries
  | _ => none

/-- The field of an object; a missing one is null. -/
def field (d : Datum) (name : String) : Datum := (d.field? name).getD .null

/-- The elements of an array; anything else has none. -/
def items : Datum → List Datum
  | .array xs => xs
  | _ => []

/-- The fields of an object in their order; anything else has none. -/
def fields : Datum → List (String × Datum)
  | .object es => es.map fun e => (e.1.text, e.2)
  | _ => []

def text? : Datum → Option String
  | .str s => some s
  | _ => none

def int? : Datum → Option Int
  | .num (.int n) => some n
  | _ => none

/-- The text in a field. -/
def textField? (d : Datum) (name : String) : Option String := (d.field name).text?

/-- The text in a field, or another. -/
def textField (d : Datum) (name base : String) : String := (d.textField? name).getD base

/-- The whole number in a field, or another. -/
def intField (d : Datum) (name : String) (base : Int) : Int := ((d.field name).int?).getD base

/-- Whether a field counts as true; a missing one is as `base` says. -/
def boolField (d : Datum) (name : String) (base : Bool) : Bool :=
  ((d.field? name).map isTruthy).getD base

mutual

/-- How deep a datum nests. -/
def depth : Datum → Nat
  | .array items => depthItems items + 1
  | .object entries => depthEntries entries + 1
  | _ => 0

def depthItems : List Datum → Nat
  | [] => 0
  | d :: rest => max d.depth (depthItems rest)

def depthEntries : List (Key × Datum) → Nat
  | [] => 0
  | e :: rest => max e.2.depth (depthEntries rest)

end

/-- The text of a datum on its own. -/
def text : Datum → String
  | .str s => s
  | d => d.innerText

end Datum

end EventScript
