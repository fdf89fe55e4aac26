import EventScript.Fault
import EventScript.Text.Search

/-!
# Handler addresses

An address names a handler of the host: a method, a module after `//@`, a path in it and a fragment after `#`.
Without a module it is an address of the web.
-/

namespace EventScript

/-- The methods of a request. -/
def requestMethods : List String := ["GET", "POST", "PUT", "PATCH", "DELETE", "HEAD", "OPTIONS"]

/-- Whether a character spells a letter of a method; the dotted, the dotless and the long letters count. -/
def spellsLetter (letter c : Char) : Bool :=
  c.toUpper == letter
    || (letter == 'I' && (c.toNat == 0x130 || c.toNat == 0x131))
    || (letter == 'S' && c.toNat == 0x17f)

/-- Whether a text begins with the letters of a method; what follows them. -/
def afterMethod? : List Char → List Char → Option (List Char)
  | [], rest => some rest
  | _ :: _, [] => none
  | m :: method, c :: rest => if spellsLetter m c then afterMethod? method rest else none

/-- Whether no line ends before the last character of a text, where a line feed may stand. -/
def isOneLine (cs : List Char) : Bool := cs.all (· != '\n') || (cs.dropLast.all (· != '\n'))

/-- A method, blanks, and the address after them. -/
def splitMethod? (cs : List Char) : Option (List Char × List Char) :=
  requestMethods.findSome? fun m =>
    match afterMethod? m.toList cs with
    | none => none
    | some rest =>
      let blanks := rest.takeWhile Text.isBlank
      let address := rest.dropWhile Text.isBlank
      if blanks.isEmpty || address.isEmpty || !isOneLine address then none
      else some (cs.take m.length, address)

/-- The module after `//@` and what follows it: nothing, or a path after a slash or colon. -/
def splitModule? (cs : List Char) : Option (List Char × List Char) :=
  match Text.afterStart? ['/', '/', '@'] cs with
  | some (c :: rest) =>
    if c.isAlpha || c == '_' then
      let isNameChar (c : Char) : Bool := c.isAlphanum || c == '_' || c == '-'
      let name := c :: rest.takeWhile isNameChar
      match rest.dropWhile isNameChar with
      | [] => some (name, [])
      | ['\n'] => some (name, [])
      | d :: more =>
        if (d == '/' || d == ':') && isOneLine more then
          some (name, if more.getLast? == some '\n' then d :: more.dropLast else d :: more)
        else none
    else none
  | _ => none

namespace HandlerPath

/-- The address in one text. -/
def full (h : HandlerPath) : String :=
  let method := match h.method with
    | some m => if m.isEmpty then "" else m ++ " "
    | none => ""
  let fragment := match h.fragment with
    | some f => if f.isEmpty then "" else "#" ++ f
    | none => ""
  if h.module == "http" then method ++ h.path ++ fragment
  else method ++ "//@" ++ h.module ++ h.path ++ fragment

/-- Reads an address. -/
def read (text : String) : Except Unresolved HandlerPath := do
  let cs := Text.trimChars Text.isBlank text.toList
  if cs.isEmpty then throw (.handlerPath (Text.quoted text))
  let (method, cs) :=
    match splitMethod? cs with
    | some (m, rest) => (some (Text.upper (String.ofList m)), Text.trimChars Text.isBlank rest)
    | none => (none, cs)
  let (path, rest) := Text.cutAt '#' cs
  let fragment := match rest with
    | some (c :: more) => some (String.ofList (c :: more))
    | _ => none
  match splitModule? path with
  | some (module, rest) =>
    let path := match rest with
      | [] => ['/']
      | ':' :: more => '/' :: more
      | _ => rest
    return { module := String.ofList module, path := String.ofList path, method, fragment }
  | none => return { module := "http", path := String.ofList path, method, fragment }

end HandlerPath

end EventScript
