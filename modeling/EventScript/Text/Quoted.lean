import EventScript.Text.Printable

/-!
# Quoted texts

A text between quotes on one line: single quotes, or double quotes when the text holds a single quote and no
double one. The chosen quote, the backslash and everything that is not printable are escaped.
-/

namespace EventScript.Text

/-- The digits of `n` in a base of at most sixteen, most significant first. -/
def baseDigits (base n : Nat) : List Char := Nat.toDigits base n

/-- `cs` filled up on the left to the given width. -/
def padLeft (width : Nat) (fill : Char) (cs : List Char) : List Char :=
  List.replicate (width - cs.length) fill ++ cs

/-- `n` in hexadecimal, with at least `width` digits. -/
def hexWidth (width n : Nat) : List Char := padLeft width '0' (baseDigits 16 n)

/-- The escape of a character by its code point: two, four or eight hexadecimal digits. -/
def codeEscape (c : Char) : List Char :=
  if c.toNat < 0x100 then '\\' :: 'x' :: hexWidth 2 c.toNat
  else if c.toNat < 0x10000 then '\\' :: 'u' :: hexWidth 4 c.toNat
  else '\\' :: 'U' :: hexWidth 8 c.toNat

/-- How one character stands between quotes; `shown` tells which characters need no escape. -/
def quotedChar (quote : Char) (shown : Char → Bool) (c : Char) : List Char :=
  if c == quote || c == '\\' then ['\\', c]
  else if c == '\t' then ['\\', 't']
  else if c == '\n' then ['\\', 'n']
  else if c == '\r' then ['\\', 'r']
  else if shown c then [c]
  else codeEscape c

/-- The quote character for a text: the one that needs no escape, single quotes if both or neither do. -/
def quoteFor (s : List Char) : Char :=
  if s.contains '\x27' && !s.contains '\x22' then '\x22' else '\x27'

/-- A text between quotes, with escapes for the characters that `shown` leaves out. -/
def quoteWith (shown : Char → Bool) (s : String) : String :=
  let q := quoteFor s.toList
  String.ofList (q :: s.toList.flatMap (quotedChar q shown) ++ [q])

/-- A text between quotes, printable characters as they are. -/
def quoted (s : String) : String := quoteWith isPrintable s

/-- A text between quotes, in which every character outside ASCII is escaped. -/
def quotedAscii (s : String) : String := quoteWith (fun c => c.toNat < 127 && isPrintable c) s

end EventScript.Text
