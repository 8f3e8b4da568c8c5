/-!
# Integers as text

Reading whole numbers written in decimal. A sign is optional and nothing else may stand around the digits; the widths in
which a caller stores the number are checked after reading, with `within`.
-/

namespace FlatSchema.Text

/-- The natural number that a run of decimal digits denotes. -/
def natOfDigits (ds : List Char) : Nat :=
  Nat.ofDigitChars 10 ds 0

/-- Reads one or more decimal digits, and nothing else. -/
def readDigits? (s : List Char) : Option Nat :=
  if !s.isEmpty && s.all Char.isDigit then some (natOfDigits s) else none

/-- Reads a number without a minus sign: a plus sign may stand in front. -/
def readNat? : List Char → Option Nat
  | '+' :: s => readDigits? s
  | s => readDigits? s

/-- Reads a number with an optional sign. -/
def readInt? : List Char → Option Int
  | '-' :: s => (readDigits? s).map (fun n => -(n : Int))
  | '+' :: s => (readDigits? s).map (fun n => (n : Int))
  | s => (readDigits? s).map (fun n => (n : Int))

end FlatSchema.Text

namespace FlatSchema

/-- An integer kept only if it lies between two bounds, both included. -/
def within (low high : Int) (v : Int) : Option Int :=
  if low ≤ v ∧ v ≤ high then some v else none

/-- Reads a signed integer of the given number of bits. -/
def readSigned? (bits : Nat) (s : String) : Option Int :=
  (Text.readInt? s.toList).bind (within (-Int.pow 2 (bits - 1)) (Int.pow 2 (bits - 1) - 1))

/-- Reads an unsigned integer of the given number of bits. -/
def readUnsigned? (bits : Nat) (s : String) : Option Nat :=
  (Text.readNat? s.toList).bind fun n => if n < Nat.pow 2 bits then some n else none

/-- The 64 bits of a signed value read as an unsigned number. -/
def unsigned64 (v : Int) : Nat :=
  (v % Int.pow 2 64).toNat

/-- The low 64 bits of a number read as a signed value. -/
def signed64 (n : Nat) : Int :=
  let m : Nat := n % Nat.pow 2 64
  if m < Nat.pow 2 63 then (m : Int) else (m : Int) - Int.pow 2 64

/-- Bitwise or of two signed 64-bit values. -/
def or64 (a b : Int) : Int :=
  signed64 (unsigned64 a ||| unsigned64 b)

end FlatSchema
