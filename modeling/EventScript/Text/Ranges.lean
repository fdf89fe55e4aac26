/-!
# Character classes as tables of ranges

A class of characters is a list of closed ranges of code points in increasing order, and membership is a
search through it.
-/

namespace EventScript.Text

/-- A closed range of code points. -/
abbrev CodeRange := Nat × Nat

/-- A code point lies in one of the ranges. -/
def inRanges (ranges : List CodeRange) (n : Nat) : Bool :=
  ranges.any fun r => r.1 ≤ n && n ≤ r.2

/-- Membership in a table kept in increasing order: the search stops at the first range that begins
above the code point. -/
def inSorted : List CodeRange → Nat → Bool
  | [], _ => false
  | r :: rest, n => if n < r.1 then false else if n ≤ r.2 then true else inSorted rest n

end EventScript.Text
