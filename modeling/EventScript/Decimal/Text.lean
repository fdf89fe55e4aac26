import EventScript.Decimal.Shortest

/-!
# Floating point numbers as text

The layout of decimals: positional between ten thousandths and sixteen digits with at least one place, with an
exponent of at least two digits beyond; and the three layouts with a fixed number of digits.
-/

namespace EventScript.Decimal

/-- The digits of a whole number. -/
def natText (n : Nat) : List Char := Nat.toDigits 10 n

/-- The digits of a whole number with its sign. -/
def intText (n : Int) : String :=
  String.ofList (if n < 0 then '-' :: natText n.natAbs else natText n.natAbs)

/-- The most digits that a whole number may have where it is written as a text or read from one. -/
def maxDigits : Nat := 4300

/-- Whether a whole number has too many digits to be written. -/
def isLong (n : Int) : Bool := maxDigits < (natText n.natAbs).length

theorem isLong_iff {n : Int} : isLong n = true ↔ Nat.pow 10 maxDigits ≤ n.natAbs := by
  rw [isLong, decide_eq_true_eq, ← Nat.not_le, natText,
    Nat.length_toDigits_le_iff (by decide) (by decide : 0 < maxDigits), Nat.not_lt, Nat.pow_eq]

theorem isLong_ten_pow {k : Nat} (h : maxDigits ≤ k) : isLong (Nat.pow 10 k) = true := by
  have hpow (m : Nat) (hm : m ≤ k) : Nat.pow 10 m ≤ Nat.pow 10 k := Nat.pow_le_pow_right (by decide) hm
  rw [isLong_iff, Int.natAbs_natCast]
  exact hpow maxDigits h

/-- An exponent with its sign and at least two digits. -/
def exponentText (e : Int) : List Char :=
  let ds := natText e.natAbs
  (if e < 0 then '-' else '+') :: (if ds.length < 2 then '0' :: ds else ds)

/-- Digits with a point after the first, if there are more. -/
def pointAfterFirst (ds : List Char) : List Char :=
  match ds with
  | [] => []
  | [d] => [d]
  | d :: rest => d :: '.' :: rest

/-- Digits whose first one has the value of `10 ^ p`, written positionally. -/
def positional (ds : List Char) (p : Int) : List Char :=
  if p < 0 then '0' :: '.' :: List.replicate (-p - 1).toNat '0' ++ ds
  else
    let whole := p.toNat + 1
    let ds := ds ++ List.replicate (whole - ds.length) '0'
    let places := ds.drop whole
    if places.isEmpty then ds.take whole else ds.take whole ++ '.' :: places

/-- The shortest text of a positive finite number: positional when its first digit stands for
`10 ^ -4` up to `10 ^ 15`, and then with at least one place. -/
def shortestText (m : Nat) (e : Int) : List Char :=
  let d := shortest m e
  let ds := natText d.digits
  let p := d.exponent + ds.length - 1
  if -4 ≤ p && p < 16 then
    let body := positional ds p
    if body.contains '.' then body else body ++ ['.', '0']
  else pointAfterFirst ds ++ 'e' :: exponentText p

/-- The shortest text that reads back as the number. -/
def floatText (x : Float) : String :=
  match parts x with
  | .nan => "nan"
  | .infinite negative => if negative then "-inf" else "inf"
  | .finite negative m e =>
    let body := if m == 0 then "0.0".toList else shortestText m e
    String.ofList (if negative then '-' :: body else body)

/-- The digits of `m · 2 ^ e` rounded to `places` places, a tie going to the even digit. -/
def fixedText (m : Nat) (e : Int) (places : Nat) : List Char :=
  let q := scaleTwo m e
  let n := roundDiv (q.1 * Nat.pow 10 places) q.2
  let ds := natText n
  let ds := List.replicate (places + 1 - ds.length) '0' ++ ds
  let whole := ds.length - places
  if places == 0 then ds else ds.take whole ++ '.' :: ds.drop whole

/-- `m · 2 ^ e` rounded to `count` digits: the digits, and the exponent of the first. -/
def significant (m : Nat) (e : Int) (count : Nat) : List Char × Int :=
  if m == 0 then (List.replicate count '0', 0)
  else
    let q := scaleTwo m e
    let p := tenExponent q.1 q.2
    let unit := scaleTen 1 (p + 1 - count)
    let n := roundDiv (q.1 * unit.2) (q.2 * unit.1)
    if n == Nat.pow 10 count then (natText (n / 10), p + 1) else (natText n, p)

/-- One digit, a point, `places` places and an exponent. `keepPoint` writes the point also without places. -/
def scientificText (m : Nat) (e : Int) (places : Nat) (keepPoint : Bool) : List Char :=
  let r := significant m e (places + 1)
  let body := pointAfterFirst r.1
  let body := if keepPoint && places == 0 then body ++ ['.'] else body
  body ++ 'e' :: exponentText r.2

/-- The digits without the zeros at their end, one digit at least. -/
def trimZeros (ds : List Char) : List Char :=
  let kept := (ds.reverse.dropWhile (· == '0')).reverse
  if kept.isEmpty then ['0'] else kept

/-- `count` significant digits in the shorter of the two layouts: with an exponent when that is below -4 or
not less than `count`. Zeros at the end of the places are dropped unless `keepZeros`. -/
def generalText (m : Nat) (e : Int) (count : Nat) (keepZeros : Bool) : List Char :=
  let count := max count 1
  let r := significant m e count
  if r.2 < -4 || count ≤ r.2 then
    let ds := if keepZeros then r.1 else trimZeros r.1
    let body := pointAfterFirst ds
    let body := if keepZeros && count == 1 then body ++ ['.'] else body
    body ++ 'e' :: exponentText r.2
  else
    let body := positional r.1 r.2
    if keepZeros then (if body.contains '.' then body else body ++ ['.'])
    else if body.contains '.' then
      let kept := (body.reverse.dropWhile (· == '0'))
      (if kept.head? == some '.' then kept.tail else kept).reverse
    else body

end EventScript.Decimal
