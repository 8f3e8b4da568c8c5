import FlatSchema.Text.Integer

/-!
# Decimal numerals

A numeral with a sign, a significand and a power of ten, and the readers of its parts. `Numeral.read?` accepts the texts
that denote a floating-point number: digits with an optional point and exponent, or one of the words for infinity and
for an undefined value.
-/

namespace FlatSchema

/-- The number `± significand · 10 ^ exponent`. -/
structure Decimal where
  negative : Bool
  significand : Nat
  exponent : Int
deriving DecidableEq, Repr, Inhabited

/-- What the text of a floating-point number denotes. -/
inductive Numeral
  | finite (value : Decimal)
  | infinite (negative : Bool)
  | undefined
deriving DecidableEq, Repr

namespace Decimal

/-- The numeral with the given digits before and after the point, times a power of ten. -/
def ofDigits (negative : Bool) (whole fraction : List Char) (exponent : Int) : Decimal where
  negative := negative
  significand := Text.natOfDigits (whole ++ fraction)
  exponent := exponent - fraction.length

/-- Reads an optional sign. The first component says whether it is a minus. -/
def readSign : List Char → Bool × List Char
  | '-' :: s => (true, s)
  | '+' :: s => (false, s)
  | s => (false, s)

/-- Reads an optional exponent part at the front of a text. A mark without digits is refused. -/
def readExponent? (s : List Char) : Option (Int × List Char) :=
  let marked (r : List Char) : Option (Int × List Char) :=
    let (negative, r) := readSign r
    let (ds, rest) := r.span Char.isDigit
    if ds.isEmpty then none
    else some (if negative then -(Text.natOfDigits ds : Int) else Text.natOfDigits ds, rest)
  match s with
  | 'e' :: r => marked r
  | 'E' :: r => marked r
  | _ => some (0, s)

end Decimal

namespace Numeral

/-- The digits after a point, if a point stands at the front of a text. -/
def readFraction : List Char → List Char × List Char
  | '.' :: s => s.span Char.isDigit
  | s => ([], s)

/-- The words that denote a value that is not a finite number, in any case of letters. -/
def ofWord? (negative : Bool) (s : List Char) : Option Numeral :=
  let w := String.ofList (s.map Char.toLower)
  if w = "inf" ∨ w = "infinity" then some (.infinite negative)
  else if w = "nan" then some .undefined
  else none

/-- Reads the text of a floating-point number. There is at least one digit; on one side of the point there may be none. -/
def read? (s : List Char) : Option Numeral :=
  let (negative, body) := Decimal.readSign s
  let (whole, r) := body.span Char.isDigit
  let (fraction, r) := readFraction r
  if whole.isEmpty && fraction.isEmpty then ofWord? negative body
  else match Decimal.readExponent? r with
    | some (exponent, []) => some (.finite (Decimal.ofDigits negative whole fraction exponent))
    | _ => none

end Numeral

end FlatSchema
