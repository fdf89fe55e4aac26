import EventScript.Yaml.Cursor

/-!
# The texts of scalars

Plain, quoted and block scalars, cut out of a text. In plain and quoted scalars and in folded blocks a line break
counts as a space unless empty lines follow it.
-/

namespace EventScript.Yaml

/-- The characters of a scalar, and the place after it. -/
abbrev Cut := List Char × Cursor

/-- A folded line break and the breaks of the empty lines after it: the break itself when it is no ordinary one, a
space when no empty line follows. -/
def foldBreak (b : Char) (more : List Char) : List Char :=
  if b != '\n' then b :: more else if more.isEmpty then [' '] else more

/-! ### Quoted scalars -/

/-- The breaks of empty lines inside quotes, up to the first character of the next line. -/
def quotedBreaks : (fuel : Nat) → Cursor → Except Refusal Cut
  | 0, c => .ok ([], c)
  | fuel + 1, c =>
    if c.atSeparator then .error .malformed
    else
      let c := c.skip fun x => x == ' ' || x == '\t'
      match c.lineBreak? with
      | some (b, c) => (quotedBreaks fuel c).map fun r => (b :: r.1, r.2)
      | none => .ok ([], c)

/-- The character of an escape of one letter. -/
def escapeChar? : Char → Option Char
  | '0' => some '\x00'
  | 'a' => some '\x07'
  | 'b' => some '\x08'
  | 't' | '\t' => some '\t'
  | 'n' => some '\n'
  | 'v' => some '\x0b'
  | 'f' => some '\x0c'
  | 'r' => some '\r'
  | 'e' => some '\x1b'
  | ' ' => some ' '
  | '"' => some '"'
  | '\\' => some '\\'
  | '/' => some '/'
  | 'N' => some '\u0085'
  | '_' => some '\u00a0'
  | 'L' => some '\u2028'
  | 'P' => some '\u2029'
  | _ => none

/-- The number of hexadecimal digits in an escape by code point. -/
def escapeWidth? : Char → Option Nat
  | 'x' => some 2
  | 'u' => some 4
  | 'U' => some 8
  | _ => none

def hexValue? (c : Char) : Option Nat :=
  if c.isDigit then some (c.toNat - 48)
  else if 'a' ≤ c && c ≤ 'f' then some (c.toNat - 87)
  else if 'A' ≤ c && c ≤ 'F' then some (c.toNat - 55)
  else none

/-- The number that some hexadecimal digits spell, `width` of them. -/
def hexNumber? (width : Nat) (cs : List Char) : Option Nat :=
  if cs.length != width then none
  else cs.foldl (fun n c => do return 16 * (← n) + (← hexValue? c)) (some 0)

/-- A quoted scalar after its opening quote. A backslash escapes only between double quotes, and a single quote
between single quotes is written twice. -/
def quotedScalar (double : Bool) : (fuel : Nat) → Cursor → Except Refusal Cut
  | 0, _ => .error .malformed
  | fuel + 1, c =>
    let next (x : Char) (c : Cursor) : Except Refusal Cut :=
      (quotedScalar double fuel c).map fun r => (x :: r.1, r.2)
    match c.rest with
    | [] => .error .malformed
    | x :: rest =>
      if x == '"' && double then .ok ([], c.step)
      else if x == '\x27' && !double then
        if rest.head? == some '\x27' then next '\x27' (c.advance 2) else .ok ([], c.step)
      else if x == '\\' && double then
        match rest with
        | [] => .error .malformed
        | e :: more =>
          match escapeChar? e, escapeWidth? e with
          | some d, _ => next d (c.advance 2)
          | none, some width =>
            match hexNumber? width (more.take width) with
            | some n =>
              if 0x10ffff < n then .error (.codePoint n)
              else next (Char.ofNat n) (c.advance (2 + width))
            | none => .error .malformed
          | none, none =>
            match c.step.lineBreak? with
            | some (_, c) => do
              let (breaks, c) ← quotedBreaks (fuel + 1) c
              let (more, c) ← quotedScalar double fuel c
              return (breaks ++ more, c)
            | none => .error .malformed
      else if isGap x then do
        let (spaces, c) := c.span fun x => x == ' ' || x == '\t'
        match c.lineBreak? with
        | some (b, c) =>
          let (breaks, c) ← quotedBreaks (fuel + 1) c
          let (more, c) ← quotedScalar double fuel c
          return (foldBreak b breaks ++ more, c)
        | none =>
          let (more, c) ← quotedScalar double fuel c
          return (spaces ++ more, c)
      else next x c.step

/-! ### Plain scalars -/

/-- Whether a plain scalar ends before these characters. -/
def endsPlain (inFlow : Bool) : List Char → Bool
  | [] => true
  | x :: rest =>
    isGap x
      || (x == ':' && (gapNext rest || (inFlow && rest.head?.any fun y => ",[]\x7b\x7d".contains y)))
      || (inFlow && ",?[]\x7b\x7d".contains x)

/-- The characters of a plain scalar up to a gap or its end. -/
def plainWord (inFlow : Bool) : List Char → List Char
  | [] => []
  | x :: rest => if endsPlain inFlow (x :: rest) then [] else x :: plainWord inFlow rest

/-- The breaks of empty lines after a plain scalar; none when a line marks the begin or the end of a
document. -/
def plainBreaks : (fuel : Nat) → Cursor → Option (List Char) × Cursor
  | 0, c => (some [], c)
  | fuel + 1, c =>
    if c.atSeparator then (none, c)
    else
      let c := c.skipSpaces
      match c.lineBreak? with
      | some (b, c) =>
        let (more, c) := plainBreaks fuel c
        (more.map (b :: ·), c)
      | none => (some [], c)

/-- What a gap after a word counts as if the scalar goes on, and whether it spans lines. -/
def plainGap (c : Cursor) : List Char × Bool × Cursor :=
  let (spaces, c) := c.span (· == ' ')
  match c.lineBreak? with
  | some (b, c) =>
    let (breaks, c) := plainBreaks (c.rest.length + 1) c
    ((breaks.map (foldBreak b)).getD [], true, c)
  | none => (spaces, false, c)

/-- A plain scalar whose later lines stand at column `indent` at least, unless it is inside a flow collection; the
last part tells whether its end was looked for on another line. -/
def plainScalar (inFlow : Bool) (indent : Int) : (fuel : Nat) → Cursor → List Char × Bool × Cursor
  | 0, c => ([], false, c)
  | fuel + 1, c =>
    let word := if c.peek? == some '#' then [] else plainWord inFlow c.rest
    if word.isEmpty then ([], false, c)
    else
      let (gap, crossed, after) := plainGap (c.advance word.length)
      if gap.isEmpty || after.peek? == some '#' || (!inFlow && after.column < indent) then
        (word, crossed, after)
      else
        let (more, crossed', last) := plainScalar inFlow indent fuel after
        if more.isEmpty then (word, crossed, last)
        else (word ++ gap ++ more, crossed', last)

/-! ### Block scalars -/

/-- What becomes of the breaks at the end of a block: all but one go, all go, or all stay. -/
inductive Chomping where
  | clip
  | strip
  | keep
  deriving DecidableEq, Repr

def Chomping.ofChar? : Char → Option Chomping
  | '+' => some .keep
  | '-' => some .strip
  | _ => none

/-- The signs after the mark of a block: the chomping and the indentation, in either order. -/
def blockSigns (c : Cursor) : Except Refusal (Chomping × Option Nat × Cursor) := do
  let chomping (c : Cursor) : Option Chomping × Cursor :=
    match c.peek?.bind Chomping.ofChar? with
    | some k => (some k, c.step)
    | none => (none, c)
  let (first, c) := chomping c
  let (indent, c) ← match c.peek? with
    | some d =>
      if d == '0' then throw .malformed
      else if d.isDigit then pure (some (d.toNat - 48), c.step)
      else pure (none, c)
    | none => pure (none, c)
  let (second, c) := if first.isNone && indent.isSome then chomping c else (first, c)
  if !spaceNext c.rest then throw .malformed
  return (second.getD .clip, indent, c)

/-- The breaks of the empty lines at the begin of a block, and the greatest column reached. -/
def blockLead : (fuel : Nat) → (greatest : Nat) → Cursor → List Char × Nat × Cursor
  | 0, greatest, c => ([], greatest, c)
  | fuel + 1, greatest, c =>
    let c := c.skipSpaces
    let greatest := max greatest c.column
    match c.lineBreak? with
    | some (b, c) =>
      let (more, greatest, c) := blockLead fuel greatest c
      (b :: more, greatest, c)
    | none => ([], greatest, c)

/-- Past the spaces before column `indent`. -/
def indentTo (indent : Nat) (c : Cursor) : Cursor :=
  c.advance ((c.rest.take (indent - c.column)).takeWhile (· == ' ')).length

/-- The breaks of empty lines in a block, up to column `indent` of the next line. -/
def blockBreaks (indent : Nat) : (fuel : Nat) → Cursor → Cut
  | 0, c => ([], c)
  | fuel + 1, c =>
    let c := indentTo indent c
    match c.lineBreak? with
    | some (b, c) =>
      let (more, c) := blockBreaks indent fuel c
      (b :: more, c)
    | none => ([], c)

/-- The lines of a block from its first one on, after the breaks of empty lines `lead`. -/
def blockLines (folded : Bool) (chomping : Chomping) (indent : Nat) :
    (fuel : Nat) → (lead : List Char) → Cursor → Cut
  | 0, _, c => ([], c)
  | fuel + 1, lead, c =>
    let blank (c : Cursor) : Bool := c.peek?.any fun x => x == ' ' || x == '\t'
    let (line, after) := c.span fun x => !isBreak x
    let (ending, after) := match after.lineBreak? with
      | some (b, after) => ([b], after)
      | none => ([], after)
    let (breaks, after) := blockBreaks indent (fuel + 1) after
    if after.column == indent && !after.rest.isEmpty then
      let joint :=
        if folded && ending == ['\n'] && !blank c && !blank after then
          (if breaks.isEmpty then [' '] else [])
        else ending
      let (more, last) := blockLines folded chomping indent fuel breaks after
      (lead ++ line ++ joint ++ more, last)
    else
      let tail := match chomping with
        | .strip => []
        | .clip => ending
        | .keep => ending ++ breaks
      (lead ++ line ++ tail, after)

/-- A block scalar after its mark, inside a block at column `outer`. -/
def blockScalar (folded : Bool) (outer : Int) (c : Cursor) : Except Refusal Cut := do
  let (chomping, indent?, c) ← blockSigns c
  let c ← c.finishLine
  let least := (max (outer + 1) 1).toNat
  let fuel := c.rest.length + 1
  let (breaks, indent, c) := match indent? with
    | some n =>
      let indent := least + n - 1
      let (breaks, c) := blockBreaks indent fuel c
      (breaks, indent, c)
    | none =>
      let (breaks, greatest, c) := blockLead fuel 0 c
      (breaks, max least greatest, c)
  if c.column == indent && !c.rest.isEmpty then
    return blockLines folded chomping indent fuel breaks c
  else
    return (if chomping == .keep then breaks else [], c)

end EventScript.Yaml
