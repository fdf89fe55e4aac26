import EventScript.Path.Printer
import EventScript.World

/-!
# Short texts of values

The text a value shows to a user, in which containers and special values are only named; the literal text that
shows a value with everything in it; and the name of a value's class.
-/

namespace EventScript

namespace Store

/-- The path behind a handle. A read-only handle is younger than the one behind it. -/
def pathBehindFrom (s : Store) : (fuel : Nat) → HandleId → Option Path
  | 0, _ => none
  | fuel + 1, h =>
    match s.handle h with
    | .bound path _ | .rooted _ path => some path
    | .readOnly inner => pathBehindFrom s fuel inner

/-- The path behind a handle. -/
def pathBehind (s : Store) (h : HandleId) : Option Path := s.pathBehindFrom (h + 1) h

/-- The path behind a handle, in words. -/
def handlePath (s : Store) (h : HandleId) : String := ((s.pathBehind h).map Path.text).getD ""

/-- The class of a handle. -/
def handleClass (s : Store) (h : HandleId) : String :=
  match s.handle h with
  | .bound .. => "BoundLValue"
  | .rooted .. => "ObjectLValue"
  | .readOnly _ => "ReadOnlyLValue"

end Store

namespace World

/-- The text a value shows to a user, a number of any size with all its digits. -/
def display (w : World) : Value → String
  | .null => "null"
  | .bool b => if b then "true" else "false"
  | .num n => n.text
  | .str s => s
  | .absent => "[noattr]"
  | .array _ => "[array]"
  | .object _ | .context _ => "[object]"
  | .blob b => (w.store.blob b).display
  | .lambda _ => "[lambda]"
  | .nodes n => "[children len=" ++ toString (w.store.nodeList n).length ++ "]"
  | .error e => (w.store.error e).display
  | .handle _ => "[lvalue]"
  | .foreign f => "[" ++ (w.store.foreign f).typeName ++ "]"

/-- The class of a value. -/
def typeName (w : World) : Value → String
  | .null => "NoneType"
  | .bool _ => "bool"
  | .num (.int _) => "int"
  | .num _ => "float"
  | .str _ => "str"
  | .absent => "_NoAttrType"
  | .array _ => "list"
  | .object _ => "dict"
  | .context _ => "ContextProxy"
  | .blob _ => "Blob"
  | .lambda _ => "Lambda"
  | .nodes _ => "ChildrenRef"
  | .error _ => "ErrorValue"
  | .handle h => w.store.handleClass h
  | .foreign f => (w.store.foreign f).typeName

/-- The literal text of a handle: its class and path, around the handle behind it if there is one. -/
def handleLiteral (w : World) : (fuel : Nat) → HandleId → String
  | 0, _ => ""
  | fuel + 1, h =>
    match w.store.handle h with
    | .readOnly inner => "<ReadOnlyLValue " ++ handleLiteral w fuel inner ++ ">"
    | _ => "<" ++ w.store.handleClass h ++ " " ++ w.store.handlePath h ++ ">"

/-- The literal text of a value inside the containers `active`, outermost last. A container inside itself is
shown as dots. -/
def literalFrom (w : World) : (fuel : Nat) → (active : List Value) → Value → String
  | 0, _, _ => ""
  | fuel + 1, active, v =>
    match v with
    | .null => "None"
    | .bool b => if b then "True" else "False"
    | .num n => n.literalText
    | .str s => Text.quoted s
    | .absent => "NoAttr"
    | .array a =>
      if active.contains v then "[...]"
      else "[" ++ String.intercalate ", "
        ((w.store.array a).toList.map (literalFrom w fuel (v :: active))) ++ "]"
    | .object o =>
      if active.contains v then "\x7b...\x7d"
      else "\x7b" ++ String.intercalate ", "
        ((w.store.object o).map fun e =>
          e.1.label ++ ": " ++ literalFrom w fuel (v :: active) e.2) ++ "\x7d"
    | .context c => "<ContextProxy " ++ Key.listText (Entries.keys (w.visible (w.store.view c))) ++ ">"
    | .blob b =>
      let blob := w.store.blob b
      "<Blob " ++ blob.mime ++ " len=" ++ toString blob.byteLength ++ ">"
    | .lambda l =>
      match w.store.lambda l with
      | .native _ => "<Lambda native>"
      | .closure .. => "<Lambda expr>"
    | .nodes n =>
      "<ChildrenRef [" ++ String.intercalate ", "
        ((w.store.nodeList n).map fun node => Text.quoted node.tag) ++ "]>"
    | .error e => "<ErrorValue " ++ Text.quoted (w.store.error e).message ++ ">"
    | .handle h => w.handleLiteral (h + 1) h
    | .foreign f => (w.store.foreign f).text

/-- How many containers there are: no value nests deeper without holding itself. -/
def containerCount (w : World) : Nat := w.store.arrays.size + w.store.objects.size

/-- How many values there are that can hold others, views of contexts included: none nests deeper without holding
itself. -/
def holderCount (w : World) : Nat := w.containerCount + w.store.views.size

/-- The literal text of a value. The whole numbers in it are taken to be short enough to be written. -/
def literal (w : World) (v : Value) : String := w.literalFrom (w.containerCount + 2) [] v

/-- The text of a value as it stands in a sentence: a text is not quoted, and special values are named. -/
def plain (w : World) : Value → String
  | .str s => s
  | .error e => (w.store.error e).report
  | .foreign f => let x := w.store.foreign f; x.plain.getD x.text
  | v@(.absent) | v@(.blob _) | v@(.lambda _) | v@(.nodes _) | v@(.handle _) => w.display v
  | v => w.literal v

/-- Whether a value counts as true where the program itself asks: not null, false, zero or empty. -/
def isFilled (w : World) : Value → Bool
  | .null | .absent => false
  | .bool b => b
  | .num n => !n.isZero
  | .str s => !s.isEmpty
  | .array a => !(w.store.array a).isEmpty
  | .object o => !(w.store.object o).isEmpty
  | .context c => !(w.visible (w.store.view c)).isEmpty
  | .nodes n => !(w.store.nodeList n).isEmpty
  | _ => true

/-- The name of a value's context or scope, outermost first. -/
def fullHtml (w : World) (s : ScopeId) : String :=
  let names := (w.chain s).reverse.filterMap fun t => (w.scope t).html
  String.intercalate " | " (names.filter fun n => !n.isEmpty)

end World

/-- The text a value shows to a user, unless it is a number that is too long to be written. -/
def displayOf (v : Value) : Exec String := do
  Exec.checkWritten v.isLong
  return (← get).display v

end EventScript
