import EventScript.Number
import EventScript.Text.Quoted

/-!
# Keys and entries

The keys of objects and the ordered entries under them. Keys are texts nearly always; data read from outside
may bring others. Numbers are one key when they are equal, whatever their representation, and a truth value
counts as one or zero. Entries keep the order of their first insertion.
-/

namespace EventScript

inductive Key where
  | null
  | bool (b : Bool)
  | num (n : Number)
  | str (s : String)
  /-- A value of the host, known by its place in the store and its text. -/
  | foreign (place : Nat) (text : String)
  deriving DecidableEq, Inhabited

namespace Key

/-- The number a key counts as. -/
def number? : Key → Option Number
  | .bool b => some (.int (if b then 1 else 0))
  | .num n => some n
  | _ => none

/-- Whether two keys name the same entry. -/
def same : Key → Key → Bool
  | .null, .null => true
  | .str s, .str t => s == t
  | .foreign _ s, .foreign _ t => s == t
  | a, b =>
    match a.number?, b.number? with
    | some m, some n => m.eqv n || m == n
    | _, _ => false

/-- The text of a key. A whole number that is a key is taken to be short enough to be written. -/
def text : Key → String
  | .null => "None"
  | .bool b => if b then "True" else "False"
  | .num n => n.literalText
  | .str s => s
  | .foreign _ t => t

/-- The text of a key as it stands in a list of keys: texts are quoted. -/
def label : Key → String
  | .str s => Text.quoted s
  | k => k.text

/-- A list of keys in brackets. -/
def listText (ks : List Key) : String := "[" ++ String.intercalate ", " (ks.map label) ++ "]"

end Key

/-- Values under keys, in the order in which the keys came. -/
abbrev Entries (α : Type) := List (Key × α)

namespace Entries

variable {α : Type}

/-- The value under a key. -/
def get? (k : Key) : Entries α → Option α
  | [] => none
  | (k', v) :: rest => if k.same k' then some v else get? k rest

/-- Whether there is a value under a key. -/
def has (k : Key) (es : Entries α) : Bool := (get? k es).isSome

/-- Puts a value under a key: in the key's place if it has one, else at the end. -/
def insert (k : Key) (v : α) : Entries α → Entries α
  | [] => [(k, v)]
  | (k', w) :: rest => if k.same k' then (k', v) :: rest else (k', w) :: insert k v rest

/-- Takes the value under a key away. -/
def erase (k : Key) : Entries α → Entries α
  | [] => []
  | (k', w) :: rest => if k.same k' then rest else (k', w) :: erase k rest

/-- Puts all entries of `new` into `es`, in their order. -/
def update (es new : Entries α) : Entries α := new.foldl (fun acc e => insert e.1 e.2 acc) es

/-- Entries from a list in which keys may repeat. -/
def ofList (es : List (Key × α)) : Entries α := update [] es

def keys (es : Entries α) : List Key := es.map (·.1)

def values (es : Entries α) : List α := es.map (·.2)

@[simp] theorem get?_nil (k : Key) : get? k ([] : Entries α) = none := rfl

theorem length_insert_of_has (k : Key) (v : α) (es : Entries α) (h : has k es = true) :
    (insert k v es).length = es.length := by
  induction es with
  | nil => simp [has] at h
  | cons e rest ih =>
    by_cases he : k.same e.1 = true
    · simp [insert, he]
    · have hr : has k rest = true := by simpa [has, get?, he] using h
      simp [insert, he, ih hr]

end Entries

end EventScript
