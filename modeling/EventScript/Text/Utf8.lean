/-!
# UTF-8

The bytes of a text, and the text of any bytes: a byte sequence that starts no character, or breaks off inside
one, is read as a replacement character.
-/

namespace EventScript.Text.Utf8

/-- The replacement character. -/
def replacement : Char := Char.ofNat 0xfffd

/-- The one to four bytes of a code point. -/
def encodeChar (c : Char) : List UInt8 :=
  let n := c.toNat
  if n < 0x80 then [UInt8.ofNat n]
  else if n < 0x800 then [UInt8.ofNat (0xc0 + n / 64), UInt8.ofNat (0x80 + n % 64)]
  else if n < 0x10000 then
    [UInt8.ofNat (0xe0 + n / 4096), UInt8.ofNat (0x80 + n / 64 % 64), UInt8.ofNat (0x80 + n % 64)]
  else
    [UInt8.ofNat (0xf0 + n / 262144), UInt8.ofNat (0x80 + n / 4096 % 64),
      UInt8.ofNat (0x80 + n / 64 % 64), UInt8.ofNat (0x80 + n % 64)]

/-- The bytes of a text. -/
def encode (cs : List Char) : List UInt8 := cs.flatMap encodeChar

/-- What a lead byte announces: how many bytes follow it, its share of the code point, and the range of the
first byte that may follow. Overlong forms, surrogates and code points past the last one are ruled out by
that range. -/
structure Lead where
  more : Nat
  share : Nat
  low : Nat
  high : Nat

/-- The announcement of a lead byte, if it is one. -/
def lead? (b : Nat) : Option Lead :=
  if b < 0xc2 then none
  else if b < 0xe0 then some ⟨1, b - 0xc0, 0x80, 0xbf⟩
  else if b < 0xf0 then
    some ⟨2, b - 0xe0, if b == 0xe0 then 0xa0 else 0x80, if b == 0xed then 0x9f else 0xbf⟩
  else if b < 0xf5 then
    some ⟨3, b - 0xf0, if b == 0xf0 then 0x90 else 0x80, if b == 0xf4 then 0x8f else 0xbf⟩
  else none

/-- Reads the bytes that continue a character: `need` more, the next one between `low` and `high`. The
answer is the character, or nothing when a byte does not fit, and how many bytes were used. -/
def continuation : (need share low high : Nat) → List UInt8 → Option Char × Nat
  | 0, share, _, _, _ => (some (Char.ofNat share), 0)
  | _ + 1, _, _, _, [] => (none, 0)
  | need + 1, share, low, high, b :: rest =>
    if low ≤ b.toNat && b.toNat ≤ high then
      let r := continuation need (64 * share + b.toNat % 64) 0x80 0xbf rest
      (r.1, r.2 + 1)
    else (none, 0)

/-- The text of a byte sequence, read with `skip` bytes already used by the character before. -/
def decodeFrom : (skip : Nat) → List UInt8 → List Char
  | _, [] => []
  | skip + 1, _ :: rest => decodeFrom skip rest
  | 0, b :: rest =>
    if b < 0x80 then Char.ofNat b.toNat :: decodeFrom 0 rest
    else match lead? b.toNat with
      | none => replacement :: decodeFrom 0 rest
      | some l =>
        let r := continuation l.more l.share l.low l.high rest
        r.1.getD replacement :: decodeFrom r.2 rest

/-- The text of a byte sequence. -/
def decode (bytes : List UInt8) : List Char := decodeFrom 0 bytes

end EventScript.Text.Utf8
