import FlatSchema.Json.Basic

/-!
# Reading JSON

A strict reader: blanks are space, tab, carriage return and line feed; there are no comments, no commas before a closing
bracket, no leading zeros, no control characters in strings and no halves of surrogate pairs; arrays and objects nest at
most 127 deep; nothing follows the value. A number beyond the range of binary floating-point numbers is refused.
-/

namespace FlatSchema.Json

/-- The deepest nesting of arrays and objects. -/
def maxDepth : Nat := 127

/-- The characters that may stand between tokens. -/
def isSpace (c : Char) : Bool :=
  c == ' ' || c == '\t' || c == '\r' || c == '\n'

/-- A text without its leading spaces. -/
def skipSpace (s : List Char) : List Char :=
  s.dropWhile isSpace

/-- The value of a hexadecimal digit. -/
def hexValue? (c : Char) : Option Nat :=
  if '0' ≤ c ∧ c ≤ '9' then some (c.toNat - 48)
  else if 'a' ≤ c ∧ c ≤ 'f' then some (c.toNat - 87)
  else if 'A' ≤ c ∧ c ≤ 'F' then some (c.toNat - 55)
  else none

/-- The number that four hexadecimal digits denote. -/
def hex4? (a b c d : Char) : Option Nat := do
  let a ← hexValue? a
  let b ← hexValue? b
  let c ← hexValue? c
  let d ← hexValue? d
  return ((a * 16 + b) * 16 + c) * 16 + d

/-- The character that a one-letter escape denotes. -/
def escaped? (c : Char) : Option Char :=
  match c with
  | '"' => some '"'
  | '\\' => some '\\'
  | '/' => some '/'
  | 'b' => some (Char.ofNat 8)
  | 'f' => some (Char.ofNat 12)
  | 'n' => some '\n'
  | 'r' => some '\r'
  | 't' => some '\t'
  | _ => none

/-- The character of a code unit that is not half of a surrogate pair. -/
def unit? (n : Nat) : Option Char :=
  if 0xD800 ≤ n ∧ n < 0xE000 then none else some (Char.ofNat n)

/-- The character of a surrogate pair. -/
def pair? (high low : Nat) : Option Char :=
  if 0xD800 ≤ high ∧ high < 0xDC00 ∧ 0xDC00 ≤ low ∧ low < 0xE000 then
    some (Char.ofNat (0x10000 + (high - 0xD800) * 0x400 + (low - 0xDC00)))
  else none

/-- Reads the rest of a string literal after the opening quote. -/
def readString? : List Char → Option (List Char × List Char)
  | [] => none
  | '"' :: r => some ([], r)
  | '\\' :: 'u' :: a :: b :: c :: d :: r => do
    let n ← hex4? a b c d
    match unit? n with
    | some x =>
      let (t, r) ← readString? r
      return (x :: t, r)
    | none =>
      match r with
      | '\\' :: 'u' :: e :: f :: g :: h :: r =>
        let x ← (hex4? e f g h).bind (pair? n)
        let (t, r) ← readString? r
        return (x :: t, r)
      | _ => none
  | '\\' :: c :: r => do
    let x ← escaped? c
    let (t, r) ← readString? r
    return (x :: t, r)
  | c :: r => do
    if c.toNat < 32 ∨ c = '\\' then none
    else
      let (t, r) ← readString? r
      return (c :: t, r)

/-- Reads the digits before the point: a zero, or digits that do not start with one. -/
def readWhole? : List Char → Option (List Char × List Char)
  | '0' :: r => some (['0'], r)
  | s =>
    let (ds, r) := s.span Char.isDigit
    if ds.isEmpty then none else some (ds, r)

/-- Reads the point and the digits after it, of which there is at least one, if a point stands there. -/
def readFraction? : List Char → Option (List Char × List Char)
  | '.' :: s =>
    let (ds, r) := s.span Char.isDigit
    if ds.isEmpty then none else some (ds, r)
  | s => some ([], s)

/-- The number of a literal. An integer literal denotes an integer if that is in range, except that minus zero does not. -/
def numberOf? (negative integral : Bool) (d : Decimal) : Option Number :=
  let v : Int := if negative then -(d.significand : Int) else d.significand
  if integral && Number.inIntegerRange v && !(negative && d.significand == 0) then some (.int v)
  else (Double.ofDecimal d).map .double

/-- Reads a number literal. -/
def readNumber? (s : List Char) : Option (Number × List Char) := do
  let (negative, body) := match s with
    | '-' :: r => (true, r)
    | r => (false, r)
  let (whole, afterWhole) ← readWhole? body
  let (fraction, afterFraction) ← readFraction? afterWhole
  let (exponent, rest) ← Decimal.readExponent? afterFraction
  let integral := rest.length == afterWhole.length
  let n ← numberOf? negative integral (Decimal.ofDigits negative whole fraction exponent)
  return (n, rest)

mutual

/-- Reads one value. The first argument bounds the number of steps, the second the nesting that is left. -/
def readValue? : Nat → Nat → List Char → Option (Json × List Char)
  | 0, _, _ => none
  | fuel + 1, depth, s =>
    match skipSpace s with
    | 'n' :: 'u' :: 'l' :: 'l' :: r => some (.null, r)
    | 't' :: 'r' :: 'u' :: 'e' :: r => some (.bool true, r)
    | 'f' :: 'a' :: 'l' :: 's' :: 'e' :: r => some (.bool false, r)
    | '"' :: r => (readString? r).map fun (t, r) => (.string (String.ofList t), r)
    | '[' :: r =>
      match depth with
      | 0 => none
      | depth + 1 =>
        match skipSpace r with
        | ']' :: r => some (.array [], r)
        | r => (readItems? fuel depth r).map fun (items, r) => (.array items, r)
    | '\x7b' :: r =>
      match depth with
      | 0 => none
      | depth + 1 =>
        match skipSpace r with
        | '\x7d' :: r => some (.object [], r)
        | r => (readMembers? fuel depth r).map fun (members, r) => (.object members, r)
    | r => (readNumber? r).map fun (n, r) => (.number n, r)

/-- Reads the items of an array, of which there is at least one, and the closing bracket. -/
def readItems? : Nat → Nat → List Char → Option (List Json × List Char)
  | 0, _, _ => none
  | fuel + 1, depth, s => do
    let (v, r) ← readValue? fuel depth s
    match skipSpace r with
    | ',' :: r =>
      let (items, r) ← readItems? fuel depth r
      return (v :: items, r)
    | ']' :: r => return ([v], r)
    | _ => none

/-- Reads the members of an object, of which there is at least one, and the closing brace. -/
def readMembers? : Nat → Nat → List Char → Option (List (String × Json) × List Char)
  | 0, _, _ => none
  | fuel + 1, depth, s => do
    match skipSpace s with
    | '"' :: r =>
      let (k, r) ← readString? r
      match skipSpace r with
      | ':' :: r =>
        let (v, r) ← readValue? fuel depth r
        match skipSpace r with
        | ',' :: r =>
          let (members, r) ← readMembers? fuel depth r
          return ((String.ofList k, v) :: members, r)
        | '\x7d' :: r => return ([(String.ofList k, v)], r)
        | _ => none
      | _ => none
    | _ => none

end

/-- Reads a text that holds one value and nothing else. Every step but the one from a list to its first item takes a character
away, so twice the length bounds the number of steps. -/
def read? (text : String) : Option Json :=
  let s := text.toList
  match readValue? (2 * s.length + 2) maxDepth s with
  | some (v, r) => if (skipSpace r).isEmpty then some v else none
  | none => none

end FlatSchema.Json
