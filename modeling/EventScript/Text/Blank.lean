import EventScript.Text.Ranges

/-!
# Blank characters and line ends

The blank characters of all scripts, the removal of blanks at both ends of a text, and the characters that
end a line.
-/

namespace EventScript.Text

/-- Every blank character: controls that move the cursor, separators, and the spaces of all scripts. -/
def blankRanges : List CodeRange :=
  [(0x9, 0xd), (0x1c, 0x20), (0x85, 0x85), (0xa0, 0xa0), (0x1680, 0x1680), (0x2000, 0x200a),
    (0x2028, 0x2029), (0x202f, 0x202f), (0x205f, 0x205f), (0x3000, 0x3000)]

/-- A blank character of any script. -/
def isBlank (c : Char) : Bool := inSorted blankRanges c.toNat

/-- A character that ends a line. -/
def isLineEnd (c : Char) : Bool :=
  inSorted [(0xa, 0xd), (0x1c, 0x1e), (0x85, 0x85), (0x2028, 0x2029)] c.toNat

/-- The list without its last elements as long as they satisfy `p`. -/
def dropEndWhile (p : Char → Bool) (cs : List Char) : List Char :=
  (cs.reverse.dropWhile p).reverse

/-- The list without the elements at both ends that satisfy `p`. -/
def trimChars (p : Char → Bool) (cs : List Char) : List Char :=
  dropEndWhile p (cs.dropWhile p)

/-- A text without the blanks at its two ends. -/
def strip (s : String) : String := String.ofList (trimChars isBlank s.toList)

/-- A text without the characters at its two ends that are `c`. -/
def stripChar (c : Char) (s : String) : String := String.ofList (trimChars (· == c) s.toList)

/-- A text without the line feeds at its end. -/
def dropTrailingNewlines (s : String) : String :=
  String.ofList (dropEndWhile (· == '\n') s.toList)

/-- The first line of a text; an empty text has none. -/
def firstLine? (s : String) : Option String :=
  if s.isEmpty then none else some (String.ofList (s.toList.takeWhile fun c => !isLineEnd c))

theorem dropEndWhile_append_eq (p : Char → Bool) (cs : List Char) :
    ∃ tail, cs = dropEndWhile p cs ++ tail ∧ ∀ c ∈ tail, p c = true := by
  refine ⟨(cs.reverse.takeWhile p).reverse, ?_, ?_⟩
  · rw [dropEndWhile, ← List.reverse_append, List.takeWhile_append_dropWhile, List.reverse_reverse]
  · intro c hc
    exact List.all_eq_true.mp List.all_takeWhile c (List.mem_reverse.mp hc)

end EventScript.Text
