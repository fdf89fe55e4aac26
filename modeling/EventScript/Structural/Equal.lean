import EventScript.Structural.Follow

/-!
# Equality of values

Deep equality compares what values hold, containers that hold themselves included; a NaN equals a NaN. Loose
equality is that of the language: texts and truth values count as numbers where they meet one.
-/

namespace EventScript

/-- Numeric equality where a NaN equals a NaN. A whole number past the range of floating point numbers cannot be
asked whether it is one. -/
def Number.sameValue (a b : Number) : Except Number.Overflow Bool := do
  a.inRange
  if a.isNan then
    b.inRange
    if b.isNan then return true
  return a.eqv b

/-- The pairs of containers that are being compared or have been. -/
abbrev Seen := List (Value × Value)

/-- Whether all pairs are equal, tried in order; a pair without its second half is not. -/
def allPairs (equal : Seen → Value → Value → Exec (Bool × Seen)) :
    Seen → List (Value × Option Value) → Exec (Bool × Seen)
  | seen, [] => return (true, seen)
  | seen, (_, none) :: _ => return (false, seen)
  | seen, (x, some y) :: rest => do
    let (same, seen) ← equal seen x y
    if same then allPairs equal seen rest else return (false, seen)

/-- Whether two values are one and need no comparison. Equal numbers are one where they are `shared`, as a copy
shares those of the value it was made of; elsewhere they are compared. -/
def isOne (shared : Bool) (a b : Value) : Bool :=
  match a with
  | .num _ => shared && a == b
  | _ => a == b

/-- Deep equality, given the pairs that count as equal already. -/
def equalFrom (read : HandleId → Exec Value) (shared : Bool) :
    (fuel : Nat) → Seen → Value → Value → Exec (Bool × Seen)
  | 0, _, _, _ => throw (.tooDeep .calling)
  | fuel + 1, seen, a, b => do
    if isOne shared a b then return (true, seen)
    let a ← follow read defaultHandleDepth a
    let b ← follow read defaultHandleDepth b
    if isOne shared a b then return (true, seen)
    match a, b with
    | .num m, .num n => return (← Exec.ofExcept .overflow (m.sameValue n), seen)
    | .array x, .array y =>
      let s ← Exec.store
      let xs := s.array x
      let ys := s.array y
      if xs.size != ys.size then return (false, seen)
      if seen.contains (a, b) then return (true, seen)
      allPairs (equalFrom read shared fuel) ((a, b) :: seen) (xs.toList.zip (ys.toList.map some))
    | .blob x, .blob y =>
      let s ← Exec.store
      return ((s.blob x).mime == (s.blob y).mime && (s.blob x).data == (s.blob y).data, seen)
    | .nodes x, .nodes y =>
      let s ← Exec.store
      return ((s.nodeList x).map (·.id) == (s.nodeList y).map (·.id), seen)
    | _, _ =>
      if a.kind == .object && b.kind == .object then
        let w ← get
        let xs := w.entries a
        if xs.length != (w.entries b).length then return (false, seen)
        if seen.contains (a, b) then return (true, seen)
        allPairs (equalFrom read shared fuel) ((a, b) :: seen) (xs.map fun e => (e.2, w.valueAt? b e.1))
      else return (false, seen)

/-- Deep equality of two values that may share their numbers. -/
def equalValues (read : HandleId → Exec Value) (shared : Bool) (a b : Value) : Exec Bool := do
  let n := (← get).holderCount + 2
  return (← equalFrom read shared (n * n) [] a b).1

/-- Whether two values hold the same. -/
def deepEqual (read : HandleId → Exec Value) (a b : Value) : Exec Bool := equalValues read false a b

/-- Whether a copy holds the same as the value it was made of. -/
def equalsCopied (read : HandleId → Exec Value) (copy v : Value) : Exec Bool := equalValues read true copy v

/-- The number a text is compared as: a blank one is zero. -/
def looseNumber (s : String) : Number :=
  if (Text.strip s).isEmpty then .int 0 else Number.read s

/-- The text that is read as a number where two values are compared. -/
def looseText? : Value → Value → Option String
  | .bool _, .str s | .num _, .str s | .str s, .bool _ | .str s, .num _ => some s
  | _, _ => none

/-- Refuses two values of which one is compared by the number that its text is, but that has too many digits. -/
def checkLoose (a b : Value) : Except Number.TooLong Unit :=
  match looseText? a b with
  | some s => Number.checkText s
  | none => .ok ()

/-- Equality of the language on values that are no handles. A text that counts as a number may have any number of
digits here; the program asks `checkLoose` before. -/
def looseEqual (a b : Value) : Bool :=
  if a == b then true
  else if a.isNull || b.isNull then a.isNull && b.isNull
  else match a, b with
    | .bool x, .bool y => x == y
    | .num m, .num n => m.eqv n
    | .str s, .str t => s == t
    | .bool x, .num n => (Value.ofBool x).eqv n
    | .num m, .bool y => m.eqv (Value.ofBool y)
    | .bool x, .str t => (Value.ofBool x).eqv (looseNumber t)
    | .str s, .bool y => (looseNumber s).eqv (Value.ofBool y)
    | .num m, .str t => m.eqv (looseNumber t)
    | .str s, .num n => (looseNumber s).eqv n
    | _, _ => false

/-- Equality of two texts, two numbers or two truth values. -/
def strictEqual : Value → Value → Bool
  | .bool x, .bool y => x == y
  | .num m, .num n => m.eqv n
  | .str s, .str t => s == t
  | _, _ => false

end EventScript
