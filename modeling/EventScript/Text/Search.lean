/-!
# Searching and cutting texts

Where one text occurs in another, the cut at the first occurrence, and the cut at every occurrence.
-/

namespace EventScript.Text

/-- The list after its first `p.length` characters when those are `p`. -/
def afterStart? : (p s : List Char) → Option (List Char)
  | [], s => some s
  | _ :: _, [] => none
  | a :: p, b :: s => if a = b then afterStart? p s else none

/-- Whether a text begins with another. -/
def startsWith (p s : List Char) : Bool := (afterStart? p s).isSome

/-- Whether a text ends with another. -/
def endsWith (p s : List Char) : Bool := startsWith p.reverse s.reverse

/-- The place of the first occurrence of `p`, counted from `at`. -/
def findFrom (p : List Char) : List Char → (at_ : Nat) → Option Nat
  | s, n =>
    if startsWith p s then some n
    else match s with
      | [] => none
      | _ :: rest => findFrom p rest (n + 1)

/-- The place of the first occurrence of `p` in `s` at or after `start`. -/
def find? (p s : List Char) (start : Nat) : Option Nat :=
  if start ≤ s.length then findFrom p (s.drop start) start else none

/-- The parts before and after the first occurrence of a character; the second is absent when the
character does not occur. -/
def cutAt (c : Char) : List Char → List Char × Option (List Char)
  | [] => ([], none)
  | d :: rest =>
    if d = c then ([], some rest)
    else let r := cutAt c rest; (d :: r.1, r.2)

/-- The pieces of `s` between the occurrences of `p`, found from the left without overlap: `piece` is what
has been read of the current piece, last character first, and `skip` characters belong to an occurrence. -/
def splitFrom (p : List Char) : (piece : List Char) → (skip : Nat) → List Char → List (List Char)
  | piece, _, [] => [piece.reverse]
  | piece, skip + 1, _ :: rest => splitFrom p piece skip rest
  | piece, 0, c :: rest =>
    if startsWith p (c :: rest) then piece.reverse :: splitFrom p [] (p.length - 1) rest
    else splitFrom p (c :: piece) 0 rest

/-- The pieces of `s` between the occurrences of the non-empty text `p`. -/
def splitOn (p s : String) : List String :=
  (splitFrom p.toList [] 0 s.toList).map String.ofList

/-- Lines joined by line feeds. -/
def joinLines (lines : List String) : String := String.intercalate "\n" lines

end EventScript.Text
