import EventScript.Decimal.Binary64

/-!
# The shortest decimal that reads back

For each number of digits in turn, the two decimals around a number are tested against the interval of reals
that round to it. The first length with a hit wins, and of two hits the nearer one; of two that are equally near,
the one with an even last digit.
-/

namespace EventScript.Decimal

/-- A decimal `digits · 10 ^ exponent`. -/
structure Digits where
  digits : Nat
  exponent : Int
  deriving Repr, DecidableEq

/-- The interval of reals that round to a number, with the number in it, all over one denominator. -/
structure Interval where
  low : Nat
  mid : Nat
  high : Nat
  den : Nat
  /-- Whether the two ends round to the number as well. -/
  closed : Bool

/-- The interval of `m · 2 ^ e`. Below a power of two the numbers lie closer together. -/
def Interval.around (m : Nat) (e : Int) : Interval :=
  let s := scaleTwo 1 (e - 2)
  let below := if m == Nat.pow 2 52 && e != -1074 then 1 else 2
  { low := (4 * m - below) * s.1, mid := 4 * m * s.1, high := (4 * m + 2) * s.1, den := s.2
    closed := m % 2 == 0 }

/-- Whether `c · 10 ^ t` lies in the interval. -/
def Interval.holds (i : Interval) (c : Nat) (t : Int) : Bool :=
  let q := scaleTen c t
  let x := q.1 * i.den
  if i.closed then i.low * q.2 ≤ x && x ≤ i.high * q.2 else i.low * q.2 < x && x < i.high * q.2

/-- The power of ten below `num / den`, searched upward from a lower bound in at most `fuel` steps. -/
def tenExponentFrom (num den : Nat) : (fuel : Nat) → Int → Int
  | 0, p => p
  | fuel + 1, p =>
    let q := scaleTen 1 (p + 1)
    if q.1 * den ≤ num * q.2 then tenExponentFrom num den fuel (p + 1) else p

/-- The exponent `p` with `10 ^ p ≤ num / den < 10 ^ (p + 1)`, for a positive fraction. -/
def tenExponent (num den : Nat) : Int :=
  let twos : Int := num.log2 - den.log2
  let guess := (twos - 1) * 30103 / 100000 - 2
  tenExponentFrom num den 8 guess

/-- The hit of the given length, if there is one. -/
def Interval.hit? (i : Interval) (p : Int) (length : Nat) : Option Digits :=
  let t := p + 1 - length
  let unit := scaleTen 1 t
  let num := i.mid * unit.2
  let den := i.den * unit.1
  let c := num / den
  let lower := i.holds c t
  let upper := i.holds (c + 1) t
  let twice := 2 * (num % den)
  let nearerLower := twice < den || (twice == den && c % 2 == 0)
  if lower && (nearerLower || !upper) then some ⟨c, t⟩
  else if upper then some ⟨c + 1, t⟩
  else none

/-- A decimal without the zeros at its end. -/
def Digits.trim : (fuel : Nat) → Digits → Digits
  | 0, d => d
  | fuel + 1, d =>
    if d.digits != 0 && d.digits % 10 == 0 then Digits.trim fuel ⟨d.digits / 10, d.exponent + 1⟩ else d

/-- The shortest decimal that reads back as `m · 2 ^ e`; seventeen digits are always enough. -/
def shortest (m : Nat) (e : Int) : Digits :=
  let i := Interval.around m e
  let p := tenExponent i.mid i.den
  let found := (List.range 17).findSome? fun k => i.hit? p (k + 1)
  (found.getD ⟨0, 0⟩).trim 400

end EventScript.Decimal
