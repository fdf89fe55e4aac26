/-!
# Binary floating point numbers as exact fractions

A finite number is `± m · 2 ^ e`. This file takes a `Float` apart into that form and builds the `Float`
nearest to any fraction, a tie going to the even mantissa.
-/

namespace EventScript.Decimal

/-- A floating point number taken apart. -/
inductive Parts where
  | nan
  | infinite (negative : Bool)
  /-- The number `m · 2 ^ e`, or its negative. -/
  | finite (negative : Bool) (m : Nat) (e : Int)
  deriving Repr, DecidableEq

/-- The parts of a number, read from its bits. -/
def parts (x : Float) : Parts :=
  let bits : Nat := x.toBits.toNat
  let negative := bits / Nat.pow 2 63 == 1
  let biased : Nat := bits / Nat.pow 2 52 % Nat.pow 2 11
  let fraction : Nat := bits % Nat.pow 2 52
  if biased == 2047 then
    if fraction == 0 then .infinite negative else .nan
  else if biased == 0 then .finite negative fraction (-1074)
  else .finite negative (Nat.pow 2 52 + fraction) ((biased : Int) - 1075)

/-- A fraction rounded to a whole number, a tie going to the even one. -/
def roundDiv (num den : Nat) : Nat :=
  let q := num / den
  let r := num % den
  if 2 * r < den || (2 * r == den && q % 2 == 0) then q else q + 1

theorem le_roundDiv (num den : Nat) : num / den ≤ roundDiv num den := by
  unfold roundDiv
  dsimp only
  split <;> omega

/-- `n · 2 ^ e` as numerator and denominator. -/
def scaleTwo (n : Nat) (e : Int) : Nat × Nat :=
  if 0 ≤ e then (n * Nat.pow 2 e.toNat, 1) else (n, Nat.pow 2 (-e).toNat)

/-- `n · 10 ^ e` as numerator and denominator. -/
def scaleTen (n : Nat) (e : Int) : Nat × Nat :=
  if 0 ≤ e then (n * Nat.pow 10 e.toNat, 1) else (n, Nat.pow 10 (-e).toNat)

/-- The magnitude bits of the number nearest to `num / den`. The exponent is chosen so that the rounded
mantissa has 53 bits, or is the largest subnormal one allows; rounding up to the next power of two carries
into the exponent bits. -/
def magnitudeBits (num den : Nat) : Nat :=
  if num == 0 then 0
  else
    let guess : Int := num.log2 - den.log2 - 53
    let quotientAt (e : Int) : Nat × Nat :=
      if 0 ≤ e then (num, den * Nat.pow 2 e.toNat) else (num * Nat.pow 2 (-e).toNat, den)
    let low := max guess (-1074)
    let q := quotientAt low
    let e := if q.1 / q.2 < Nat.pow 2 53 then low else low + 1
    let q := quotientAt e
    let m := roundDiv q.1 q.2
    if m < Nat.pow 2 52 then m
    else if e > 971 then 2047 * Nat.pow 2 52
    else min ((e + 1075).toNat * Nat.pow 2 52 + (m - Nat.pow 2 52)) (2047 * Nat.pow 2 52)

/-- Past the largest number, the bits nearest to a whole number are those of an infinity. -/
theorem magnitudeBits_huge {n : Nat} (h : 1024 ≤ n.log2) : magnitudeBits n 1 = 2047 * Nat.pow 2 52 := by
  have hpos : n ≠ 0 := by
    rintro rfl
    exact absurd h (by decide)
  obtain ⟨k, hk⟩ : ∃ k, n.log2 = k + 1024 := ⟨n.log2 - 1024, (Nat.sub_add_cancel h).symm⟩
  have hlow : 2 ^ (k + 971) * 2 ^ 53 ≤ n := by
    have hexp : k + 971 + 53 ≤ n.log2 := by omega
    rw [← Nat.pow_add]
    exact (Nat.le_log2 hpos).mp hexp
  have hone : Nat.log2 1 = 0 := by decide
  have hguess : max ((n.log2 : Int) - (Nat.log2 1 : Nat) - 53) (-1074) = (k + 971 : Nat) := by
    rw [hk, hone]
    omega
  -- the quotient by the first guess has 54 bits, so the exponent is the next one
  have hfirst : ¬n / (1 * Nat.pow 2 (k + 971)) < Nat.pow 2 53 := by
    rw [Nat.one_mul, Nat.not_lt]
    exact (Nat.le_div_iff_mul_le (Nat.two_pow_pos _)).mpr (Nat.mul_comm _ _ ▸ hlow)
  have hsecond : ¬roundDiv n (1 * Nat.pow 2 (k + 972)) < Nat.pow 2 52 := by
    rw [Nat.one_mul, Nat.not_lt]
    refine Nat.le_trans ((Nat.le_div_iff_mul_le (Nat.two_pow_pos _)).mpr ?_) (le_roundDiv _ _)
    refine Nat.le_trans (Nat.le_of_eq ?_) hlow
    exact (Nat.pow_add 2 52 (k + 972)).symm.trans ((congrArg (2 ^ ·) (by omega)).trans (Nat.pow_add 2 (k + 971) 53))
  have hexp : (0 : Int) ≤ (k + 971 : Nat) := Int.natCast_nonneg _
  have hexp' : (0 : Int) ≤ ((k + 971 : Nat) : Int) + 1 := by omega
  have hnat : (((k + 971 : Nat) : Int) + 1).toNat = k + 972 := by omega
  have hpast : ((k + 971 : Nat) : Int) + 1 > 971 := by omega
  unfold magnitudeBits
  simp only [hguess, beq_eq_false_iff_ne.mpr hpos, Bool.false_eq_true, if_false, if_pos hexp, Int.toNat_natCast,
    if_neg hfirst, if_pos hexp', hnat, if_neg hsecond, if_pos hpast]

/-- The number with the given sign that is nearest to `num / den`; an infinity when there is none. -/
def nearest (negative : Bool) (num den : Nat) : Float :=
  Float.ofBits (UInt64.ofNat ((if negative then Nat.pow 2 63 else 0) + magnitudeBits num den))

/-- The number nearest to a whole number, unless that lies past the largest one. -/
def ofInt? (n : Int) : Option Float :=
  let x := nearest (n < 0) n.natAbs 1
  if x.isInf then none else some x

theorem ofInt?_huge {n : Int} (h : 1024 ≤ n.natAbs.log2) : ofInt? n = none := by
  unfold ofInt? nearest
  rw [magnitudeBits_huge h]
  by_cases hn : n < 0
  · simp only [hn, decide_true, if_true]
    exact if_pos (by decide +kernel)
  · simp only [hn, decide_false, Bool.false_eq_true, if_false]
    exact if_pos (by decide +kernel)

/-- The number nearest to `± n · 10 ^ e`. Exponents that no digits can make up for are not computed. -/
def ofDecimal (negative : Bool) (n : Nat) (e : Int) : Float :=
  let digits : Int := n.log2 / 3 + 1
  if n == 0 || digits + e < -400 then nearest negative 0 1
  else if e > 400 then nearest negative (Nat.pow 10 400) 1
  else let q := scaleTen n e; nearest negative q.1 q.2

/-- The whole number next to `x` on the side of zero; none for an infinity or NaN. -/
def truncate? (x : Float) : Option Int :=
  match parts x with
  | .finite negative m e =>
    let q := scaleTwo m e
    let n : Int := (q.1 / q.2 : Nat)
    some (if negative then -n else n)
  | _ => none

/-- Whether a number is whole. -/
def isWhole (x : Float) : Bool :=
  match parts x with
  | .finite _ m e => let q := scaleTwo m e; q.1 % q.2 == 0
  | _ => false

end EventScript.Decimal
