import EventScript.Text.Digit
import EventScript.Text.Utf8
import EventScript.Yaml.ScalarText

/-!
# Anchors, tags and directives

The marks of a YAML text that have names of their own.
-/

namespace EventScript.Yaml

/-- A tag as written: the part after its handle, or the whole tag when it has no handle. -/
structure TagText where
  handle : Option String
  suffix : String
  deriving DecidableEq, Repr

inductive Directive where
  | version (major : Nat)
  | handle (handle target : String)
  /-- A directive of another name means nothing. -/
  | other
  deriving DecidableEq, Repr

/-- A place after which only some characters may stand, or the end of the text. -/
def mustFollow (c : Cursor) (p : Char → Bool) : Except Refusal Unit :=
  if c.peek?.all p then .ok () else .error .malformed

/-- The name of an anchor or an alias, after its mark. -/
def anchorName (c : Cursor) : Except Refusal (String × Cursor) := do
  let (name, c) := c.span isNameChar
  if name.isEmpty then throw .malformed
  mustFollow c fun x => isGap x || "?:,]\x7d%@\x60".contains x
  return (String.ofList name, c)

/-! ### Tags -/

/-- A character that may stand in a tag. -/
def isTagChar (c : Char) : Bool := c.isAlphanum || "-;/?:@&=+$,_.!~*'()[]%".contains c

/-- The bytes of a run of percent escapes. -/
def percentBytes : (fuel : Nat) → Cursor → Except Refusal (List UInt8 × Cursor)
  | 0, c => .ok ([], c)
  | fuel + 1, c =>
    if c.peek? != some '%' then .ok ([], c)
    else
      let c := c.step
      match hexNumber? 2 (c.rest.take 2) with
      | none => .error .malformed
      | some n => (percentBytes fuel (c.advance 2)).map fun r => (UInt8.ofNat n :: r.1, r.2)

/-- The text of a tag after its handle; escapes spell the bytes of characters. -/
def tagSuffix : (fuel : Nat) → Cursor → Except Refusal (List Char × Cursor)
  | 0, c => .ok ([], c)
  | fuel + 1, c =>
    let (plain, c) := c.span fun x => isTagChar x && x != '%'
    if c.peek? != some '%' then .ok (plain, c)
    else do
      let (bytes, c) ← percentBytes c.rest.length c
      let text := Text.Utf8.decode bytes
      if Text.Utf8.encode text != bytes then throw .malformed
      let (more, c) ← tagSuffix fuel c
      return (plain ++ text ++ more, c)

/-- The text of a tag, which is not empty. -/
def tagText (c : Cursor) : Except Refusal (String × Cursor) := do
  let (text, last) ← tagSuffix (c.rest.length + 1) c
  if last.index == c.index then throw .malformed
  return (String.ofList text, last)

/-- The handle of a tag: a mark alone, or a name between two. -/
def tagHandle (c : Cursor) : Except Refusal (String × Cursor) := do
  if c.peek? != some '!' then throw .malformed
  let (name, after) := c.step.span isNameChar
  if after.peek? == some '!' then return (String.ofList ('!' :: name ++ ['!']), after.step)
  if name.isEmpty && after.peek? == some ' ' then return ("!", after)
  throw .malformed

/-- A tag from its mark on. -/
def tag (c : Cursor) : Except Refusal (TagText × Cursor) := do
  let after := c.step
  let (t, last) ← match after.peek? with
    | some '<' => do
      let (suffix, last) ← tagText after.step
      if last.peek? != some '>' then throw .malformed
      Except.ok ({ handle := none, suffix : TagText }, last.step)
    | _ =>
      if gapNext after.rest then Except.ok ({ handle := none, suffix := "!" : TagText }, after)
      else do
        let named := (after.rest.takeWhile fun x => !isSpaceOrBreak x).contains '!'
        let (handle, last) ← if named then tagHandle c else Except.ok ("!", after)
        let (suffix, last) ← tagText last
        Except.ok ({ handle := some handle, suffix : TagText }, last)
  mustFollow last isSpaceOrBreak
  return (t, last)

/-! ### Directives -/

/-- A number of a version. -/
def versionNumber (c : Cursor) : Except Refusal (Nat × Cursor) := do
  let (digits, c) := c.span Char.isDigit
  if digits.isEmpty then throw .malformed
  return (Text.digitsValue digits, c)

/-- A directive with its line, after its mark. -/
def directive (c : Cursor) : Except Refusal (Directive × Cursor) := do
  let (name, c) := c.span isNameChar
  if name.isEmpty then throw .malformed
  mustFollow c isSpaceOrBreak
  let (d, c) ← match String.ofList name with
    | "YAML" => do
      let (major, c) ← versionNumber c.skipSpaces
      if c.peek? != some '.' then throw .malformed
      let (_, c) ← versionNumber c.step
      mustFollow c isSpaceOrBreak
      Except.ok (Directive.version major, c)
    | "TAG" => do
      let (handle, c) ← tagHandle c.skipSpaces
      if c.peek? != some ' ' then throw .malformed
      let (target, c) ← tagText c.skipSpaces
      mustFollow c isSpaceOrBreak
      Except.ok (Directive.handle handle target, c)
    | _ => Except.ok (Directive.other, c.skipLine)
  return (d, ← c.finishLine)

end EventScript.Yaml
