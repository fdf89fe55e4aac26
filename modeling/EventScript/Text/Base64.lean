/-!
# Base64

Three bytes are written as four characters of a 64-letter alphabet, and a last group of one or two bytes is
filled up with `=`. Reading passes over characters outside the alphabet and stops at a complete padding.
-/

namespace EventScript.Text.Base64

/-- The character for six bits. -/
def digit (n : Nat) : Char :=
  if n < 26 then Char.ofNat (65 + n)
  else if n < 52 then Char.ofNat (97 + (n - 26))
  else if n < 62 then Char.ofNat (48 + (n - 52))
  else if n = 62 then '+' else '/'

/-- The six bits a character of the alphabet stands for. -/
def digit? (c : Char) : Option Nat :=
  if c.isUpper then some (c.toNat - 65)
  else if c.isLower then some (c.toNat - 97 + 26)
  else if c.isDigit then some (c.toNat - 48 + 52)
  else if c = '+' then some 62
  else if c = '/' then some 63
  else none

/-- The base64 text of a byte sequence. -/
def encode : List UInt8 → List Char
  | [] => []
  | [a] => [digit (a.toNat / 4), digit (a.toNat % 4 * 16), '=', '=']
  | [a, b] =>
    [digit (a.toNat / 4), digit (a.toNat % 4 * 16 + b.toNat / 16), digit (b.toNat % 16 * 4), '=']
  | a :: b :: c :: rest =>
    digit (a.toNat / 4) :: digit (a.toNat % 4 * 16 + b.toNat / 16)
      :: digit (b.toNat % 16 * 4 + c.toNat / 64) :: digit (c.toNat % 64) :: encode rest

/-- Why a text is not base64. -/
inductive Malformed where
  /-- A character outside ASCII. -/
  | notAscii
  /-- The last group holds a single character; the count is that of all characters of the alphabet. -/
  | loneDigit (count : Nat)
  /-- The last group is short of its padding. -/
  | badPadding
  deriving Repr, DecidableEq

/-- Where a reader stands: the place in the current group of four, the bits left over from the character
before, the paddings seen in a row, and the bytes read, last first. -/
structure Cursor where
  place : Nat := 0
  bits : Nat := 0
  pads : Nat := 0
  bytes : List UInt8 := []

/-- Takes in six bits. -/
def Cursor.push (k : Cursor) (v : Nat) : Cursor :=
  match k.place with
  | 0 => { k with place := 1, bits := v, pads := 0 }
  | 1 => { place := 2, bits := v % 16, pads := 0, bytes := UInt8.ofNat (k.bits * 4 + v / 16) :: k.bytes }
  | 2 => { place := 3, bits := v % 4, pads := 0, bytes := UInt8.ofNat (k.bits * 16 + v / 4) :: k.bytes }
  | _ => { place := 0, bits := 0, pads := 0, bytes := UInt8.ofNat (k.bits * 64 + v) :: k.bytes }

/-- The end of the text: a group that has begun is an error. -/
def Cursor.finish (k : Cursor) : Except Malformed (List UInt8) :=
  match k.place with
  | 0 => .ok k.bytes.reverse
  | 1 => .error (.loneDigit (k.bytes.length / 3 * 4 + 1))
  | _ => .error .badPadding

/-- Reads on from a cursor. -/
def decodeFrom : Cursor → List Char → Except Malformed (List UInt8)
  | k, [] => k.finish
  | k, c :: rest =>
    if c = '=' then
      if 2 ≤ k.place && 4 ≤ k.place + (k.pads + 1) then .ok k.bytes.reverse
      else decodeFrom { k with pads := if 2 ≤ k.place then k.pads + 1 else k.pads } rest
    else match digit? c with
      | none => decodeFrom k rest
      | some v => decodeFrom (k.push v) rest

/-- The bytes of a base64 text. -/
def decode (cs : List Char) : Except Malformed (List UInt8) :=
  if cs.all fun c => c.toNat < 128 then decodeFrom {} cs else .error .notAscii

end EventScript.Text.Base64
