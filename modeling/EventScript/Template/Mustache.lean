import EventScript.Datum
import EventScript.Pattern.Match

/-!
# Mustache templates

Templates with tags between delimiters: variables, sections and inverted sections over a stack of data, comments,
and a change of the delimiters. A tag that prints nothing and stands alone on its line takes the line with it.
Nothing is escaped, and there are no partial templates.
-/

namespace EventScript.Mustache

/-- A piece of a template. -/
inductive Piece where
  | text (s : String)
  | variable (key : String)
  | section_ (inverted : Bool) (key : String) (body : List Piece)
  deriving Inhabited

/-- Why a template is refused. -/
inductive Error where
  /-- A section is closed that is not the innermost open one, or none is open. -/
  | endMismatch (place : Nat) (found : String) (opened : Option String)
  /-- A change of delimiters that names only one. -/
  | loneDelimiter
  deriving DecidableEq, Repr

def Error.message : Error → String
  | .endMismatch place found opened =>
    let expected := match opened with
      | some key => "/" ++ key
      | none => "#" ++ found
    "Section end tag mismatch at position " ++ toString place ++ ". Found \x7b\x7b/" ++ found
      ++ "\x7d\x7d, expected \x7b\x7b" ++ expected ++ "\x7d\x7d"
  | .loneDelimiter => "list index out of range"

/-- The class of an error, as messages name it. -/
def Error.typeName : Error → String
  | .endMismatch .. => "ParsingError"
  | .loneDelimiter => "IndexError"

/-! ### Tags -/

/-- The two delimiters. -/
structure Delimiters where
  opening : List Char
  closing : List Char

def Delimiters.default : Delimiters := ⟨['\x7b', '\x7b'], ['\x7d', '\x7d']⟩

/-- A delimiter as a pattern for itself. -/
def escapeDelimiter (cs : List Char) : String :=
  String.ofList (cs.flatMap fun c => if Text.isWordChar c || 128 ≤ c.toNat then [c] else ['\\', c])

/-- The pattern of a tag. Its groups are the blanks before it, the mark and the body of a change of
delimiters, the mark and the body of a tag in braces, and the mark and the body of any other. -/
def tagPattern (d : Delimiters) : String :=
  "([ \\t]*)" ++ escapeDelimiter d.opening
    ++ "\\s*(?:(=)\\s*(.+?)\\s*=|(\\\x7b)\\s*(.+?)\\s*\\\x7d|([!>&/#^]?)\\s*([\\s\\S]+?))\\s*"
    ++ escapeDelimiter d.closing

/-- What kind of tag was found. -/
inductive Mark where
  | change
  | variable
  | open_ (inverted : Bool)
  | close
  /-- A comment or a partial template: nothing is printed. -/
  | silent
  deriving DecidableEq

/-- A tag in a template: its place with the blanks before it, and what it says. -/
structure Tag where
  first : Nat
  last : Nat
  blanks : Nat
  mark : Mark
  key : String

/-- The mark a character stands for. -/
def Mark.ofText : String → Mark
  | "#" => .open_ false
  | "^" => .open_ true
  | "/" => .close
  | "!" | ">" => .silent
  | _ => .variable

/-- The first tag at or after a place. -/
def nextTag? (d : Delimiters) (text : Array Char) (start : Nat) : Option Tag := do
  let (p, _) ← (Pattern.read {} (tagPattern d)).toOption
  let (first, last, caps) ← Pattern.searchFrom text p (text.size + 1 - start) start
  let piece (n : Nat) : Option String :=
    (caps.lookup n).map fun ab => String.ofList (text.extract ab.1 ab.2).toList
  let blanks := ((piece 1).getD "").length
  if (piece 2).isSome then return { first, last, blanks, mark := .change, key := (piece 3).getD "" }
  if (piece 4).isSome then return { first, last, blanks, mark := .variable, key := (piece 5).getD "" }
  return { first, last, blanks, mark := Mark.ofText ((piece 6).getD ""), key := (piece 7).getD "" }

def isLineBreak (c : Char) : Bool := c == '\n' || c == '\r'

/-- The place after a line break, if there is one. -/
def skipBreak (text : Array Char) (i : Nat) : Nat :=
  let i := if text[i]? == some '\r' then i + 1 else i
  if text[i]? == some '\n' then i + 1 else i

/-- The tag with the place where it begins and ends for the text around it: a tag that prints nothing and is
alone on its line takes the whole line, and any other leaves the blanks before it. -/
def Tag.bounds (text : Array Char) (t : Tag) : Nat × Nat :=
  let begins := t.first == 0 || (text[t.first - 1]?).any isLineBreak
  let ends := t.last == text.size || (text[t.last]?).any isLineBreak
  if begins && ends && t.mark != .variable then (t.first, skipBreak text t.last)
  else (t.first + t.blanks, t.last)

/-! ### Reading -/

/-- A section being read: what it is, and the pieces before it, last first. -/
structure Open where
  inverted : Bool
  key : String
  before : List Piece

/-- The pieces of a text between two tags, if there is any. -/
def textPiece (text : Array Char) (a b : Nat) (done : List Piece) : List Piece :=
  if a < b then .text (String.ofList (text.extract a b).toList) :: done else done

/-- The words of a text between blanks. -/
def wordsOf (cs : List Char) : List (List Char) :=
  let step (c : Char) (acc : List Char × List (List Char)) : List Char × List (List Char) :=
    if Text.isBlank c then ([], if acc.1.isEmpty then acc.2 else acc.1 :: acc.2) else (c :: acc.1, acc.2)
  let r := cs.foldr step ([], [])
  if r.1.isEmpty then r.2 else r.1 :: r.2

/-- Reads a template from a place on, in at most `fuel` tags. A section that is still open at the end is
all that counts. -/
def readFrom (text : Array Char) :
    (fuel : Nat) → Delimiters → Nat → List Open → List Piece → Except Error (List Piece)
  | 0, _, _, _, done => .ok done.reverse
  | fuel + 1, d, start, opened, done =>
    match nextTag? d text start with
    | none => .ok (textPiece text start text.size done).reverse
    | some t =>
      let (first, last) := t.bounds text
      let done := textPiece text start first done
      match t.mark with
      | .open_ inverted =>
        readFrom text fuel d last ({ inverted, key := t.key, before := done } :: opened) []
      | .close =>
        match opened with
        | [] => .error (.endMismatch last t.key none)
        | o :: rest =>
          if o.key == t.key then
            readFrom text fuel d last rest (.section_ o.inverted o.key done.reverse :: o.before)
          else .error (.endMismatch last t.key (some o.key))
      | .change =>
        match wordsOf t.key.toList with
        | a :: b :: _ => readFrom text fuel ⟨a, b⟩ last opened done
        | _ => .error .loneDelimiter
      | .variable => readFrom text fuel d last opened (.variable t.key :: done)
      | .silent => readFrom text fuel d last opened done

/-- Reads a template. -/
def read (template : String) : Except Error (List Piece) :=
  let text := template.toList.toArray
  readFrom text (text.size + 1) .default 0 [] []

/-! ### Rendering -/

/-- The entry of an object; other data have none. -/
def field? (name : String) : Datum → Option Datum
  | .object entries => Entries.get? (.str name) entries
  | _ => none

/-- The datum a name stands for on a stack of data, innermost first: a dot is the innermost one, and of a
name with dots only the first part is looked for on the whole stack. -/
def resolve? (stack : List Datum) (name : String) : Option Datum :=
  if name == "." then stack.head?
  else
    match (name.splitOn ".") with
    | [] => none
    | head :: parts =>
      parts.foldl (fun d part => d.bind (field? part)) (stack.findSome? (field? head))

/-- The data a section is rendered for. -/
def sectionData : Datum → List Datum
  | .array items => items
  | d => if d.isTruthy then [d] else []

mutual

def renderPiece (stack : List Datum) : Piece → String
  | .text s => s
  | .variable key => ((resolve? stack key).map Datum.text).getD ""
  | .section_ true key body =>
    if ((resolve? stack key).map Datum.isTruthy).getD false then "" else renderAll stack body
  | .section_ false key body =>
    String.join (((resolve? stack key).map sectionData).getD [] |>.map fun d =>
      renderAll (d :: stack) body)

/-- Renders the pieces of a template for a stack of data. -/
def renderAll (stack : List Datum) : List Piece → String
  | [] => ""
  | p :: rest => renderPiece stack p ++ renderAll stack rest

end

/-- Renders a template for a datum. -/
def render (template : String) (d : Datum) : Except Error String :=
  (read template).map (renderAll [d])

end EventScript.Mustache
