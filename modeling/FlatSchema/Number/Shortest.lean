import FlatSchema.Number.Double

/-!
# The fewest digits

The shortest decimal that rounds to a given binary number, and its text. Among decimals of the same length the one nearest
to the number is taken. The decimals that round to a number fill an interval; its ends belong to it if the significand is
even, since a half goes to the even neighbour.
-/

namespace FlatSchema.Double

/-- A positive number with the interval of reals that round to it: numerators over one denominator. -/
structure Interval where
  low : Nat
  value : Nat
  high : Nat
  den : Nat
  closed : Bool

/-- The interval of the reals that round to a positive number. Below a power of two the neighbours lie closer. -/
def interval (d : Double) : Interval :=
  let m := 4 * d.significand
  let below := if d.significand = Nat.pow 2 52 ∧ leastExponent < d.exponent then 1 else 2
  let e := d.exponent - 2
  let scale := Nat.pow 2 e.toNat
  { low := (m - below) * scale, value := m * scale, high := (m + 2) * scale, den := Nat.pow 2 (-e).toNat,
    closed := d.significand % 2 == 0 }

namespace Interval

/-- The numbers of an interval measured in units of `10 ^ p`. -/
def inUnits (i : Interval) (p : Int) : Interval :=
  if 0 ≤ p then { i with den := i.den * Nat.pow 10 p.toNat }
  else
    let f := Nat.pow 10 (-p).toNat
    { i with low := i.low * f, value := i.value * f, high := i.high * f }

/-- Whether a whole number of units lies in the interval. -/
def holds (i : Interval) (n : Nat) : Bool :=
  if i.closed then i.low ≤ n * i.den && n * i.den ≤ i.high else i.low < n * i.den && n * i.den < i.high

/-- The whole number of units nearest to the value among its two neighbours that lie in the interval. -/
def nearest? (i : Interval) : Option Nat :=
  let f := i.value / i.den
  match i.holds f, i.holds (f + 1) with
  | true, true => some (Double.roundDiv i.value i.den)
  | true, false => some f
  | false, true => some (f + 1)
  | false, false => none

/-- The number of places before the point of the value: the least `k` with the value below `10 ^ k`. -/
def places (i : Interval) : Int :=
  let k : Int := ((Nat.toDigits 10 i.value).length : Int) - (Nat.toDigits 10 i.den).length
  let u := i.inUnits k
  if u.value < u.den then k else k + 1

end Interval

/-- Digits and power of ten of the shortest decimal that rounds to a positive number; 17 digits always suffice. -/
def shortest (d : Double) : Nat × Int :=
  let i := d.interval
  let k := i.places
  let found := (List.range 17).findSome? fun (n : Nat) =>
    let p := k - ((n : Int) + 1)
    (i.inUnits p).nearest?.map fun c => (c, p)
  found.getD (0, 0)

/-- How numbers are laid out: with exponents of the first digit from `plainFrom` to `plainTo` they are written without a
power of ten. -/
structure Layout where
  plainFrom : Int
  plainTo : Int

/-- The digits of a decimal without trailing zeros, and the exponent of its first digit. -/
def significantDigits (n : Nat) (p : Int) : List Char × Int :=
  let ds := Nat.toDigits 10 n
  let kept := (ds.reverse.dropWhile (· == '0')).reverse
  (kept, p + ds.length - 1)

/-- Plain notation: at least one digit on either side of the point. -/
def plainText (ds : List Char) (x : Int) : List Char :=
  if 0 ≤ x then
    let n := x.toNat + 1
    let whole := ds.take n ++ List.replicate (n - ds.length) '0'
    let fraction := ds.drop n
    whole ++ '.' :: (if fraction.isEmpty then ['0'] else fraction)
  else '0' :: '.' :: (List.replicate ((-x).toNat - 1) '0' ++ ds)

/-- Notation with a power of ten, the sign of which is always written. -/
def exponentText (ds : List Char) (x : Int) : List Char :=
  let sign := if x < 0 then '-' else '+'
  let power := 'e' :: sign :: Nat.toDigits 10 x.natAbs
  match ds with
  | d :: e :: rest => d :: '.' :: e :: rest ++ power
  | _ => ds ++ power

/-- The text of a number. Zero keeps its sign. -/
def text (l : Layout) (d : Double) : String :=
  let sign := if d.negative then ['-'] else []
  if d.significand = 0 then String.ofList (sign ++ ['0', '.', '0'])
  else
    let (n, p) := d.shortest
    let (ds, x) := significantDigits n p
    String.ofList (sign ++ (if l.plainFrom ≤ x ∧ x ≤ l.plainTo then plainText ds x else exponentText ds x))

end FlatSchema.Double
