import FlatSchema.Number.Decimal

/-!
# Binary floating-point numbers

Finite numbers with 53 significant bits and exponents from -1074 to 971, and the nearest such number to a decimal.
Everything is exact arithmetic on natural numbers.
-/

namespace FlatSchema

/-- The number `± significand · 2 ^ exponent`, with a significand below `2 ^ 53`. -/
structure Double where
  negative : Bool
  significand : Nat
  exponent : Int
deriving DecidableEq, Repr, Inhabited

namespace Double

/-- The least exponent; numbers that need a smaller one are rounded to a multiple of `2 ^ leastExponent`. -/
def leastExponent : Int := -1074

/-- The greatest exponent. -/
def greatestExponent : Int := 971

/-- `num / den` rounded to a natural number, a half going to the even neighbour. -/
def roundDiv (num den : Nat) : Nat :=
  let q := num / den
  let r := num % den
  if 2 * r < den then q else if den < 2 * r then q + 1 else q + q % 2

/-- The fraction `num / (den · 2 ^ e)`, as a numerator and a denominator. -/
def unscale (num den : Nat) (e : Int) : Nat × Nat :=
  if 0 ≤ e then (num, den * Nat.pow 2 e.toNat) else (num * Nat.pow 2 (-e).toNat, den)

/-- The exponent with which the positive fraction `num / den` has 53 bits, or the least exponent if that is greater. -/
def exponentFor (num den : Nat) : Int :=
  let e := max leastExponent ((Nat.log2 num : Int) - Nat.log2 den - 53)
  let (n, d) := unscale num den e
  if n < d * Nat.pow 2 53 then e else e + 1

/-- The number nearest to the fraction `num / den`, or nothing if that lies beyond the greatest finite number. -/
def ofFraction (negative : Bool) (num den : Nat) : Option Double :=
  if num = 0 then some ⟨negative, 0, leastExponent⟩
  else
    let e := exponentFor num den
    let (n, d) := unscale num den e
    let m := roundDiv n d
    let (m, e) := if m = Nat.pow 2 53 then (Nat.pow 2 52, e + 1) else (m, e)
    if greatestExponent < e then none else some ⟨negative, m, e⟩

/-- The number nearest to a decimal, or nothing if that lies beyond the greatest finite number. A decimal of 310 or more
places before the point is too great, and one whose first digit stands behind 330 zeros is too small to tell from zero. -/
def ofDecimal (d : Decimal) : Option Double :=
  let places : Int := (Nat.toDigits 10 d.significand).length + d.exponent
  if d.significand = 0 ∨ places < -330 then some ⟨d.negative, 0, leastExponent⟩
  else if 310 < places then none
  else if 0 ≤ d.exponent then ofFraction d.negative (d.significand * Nat.pow 10 d.exponent.toNat) 1
  else ofFraction d.negative d.significand (Nat.pow 10 (-d.exponent).toNat)

end Double

/-- Whether a text denotes a finite floating-point number, after rounding. -/
def Numeral.toDouble? : Numeral → Option Double
  | .finite d => Double.ofDecimal d
  | .infinite _ => none
  | .undefined => none

end FlatSchema
