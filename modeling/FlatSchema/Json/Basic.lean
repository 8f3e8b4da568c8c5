import FlatSchema.Number.Shortest

/-!
# JSON values

Members of an object are kept as they were written, in order and with repetitions. A number is an integer if its literal
is one in the range from `-2 ^ 63` to `2 ^ 64 - 1`, and a binary floating-point number otherwise.
-/

namespace FlatSchema

/-- A JSON number. -/
inductive Number
  | int (value : Int)
  | double (value : Double)
deriving DecidableEq, Repr, Inhabited

/-- A JSON value. -/
inductive Json
  | null
  | bool (value : Bool)
  | number (value : Number)
  | string (value : String)
  | array (items : List Json)
  | object (members : List (String × Json))
deriving Repr, Inhabited, BEq

namespace Number

/-- Numbers are written plainly when their first digit stands at most five places behind the point or at most sixteen before
it, and with a power of ten otherwise. -/
def layout : Double.Layout where
  plainFrom := -5
  plainTo := 15

/-- The text of a number. -/
def text : Number → String
  | .int v => toString v
  | .double d => d.text layout

/-- The integers that are kept as such. -/
def inIntegerRange (v : Int) : Bool :=
  -Int.pow 2 63 ≤ v && v < Int.pow 2 64

end Number

namespace Json

/-- The last member with a given key. -/
def member? (key : String) (members : List (String × Json)) : Option Json :=
  (members.reverse.find? (fun m => m.1 == key)).map (·.2)

/-- Puts a member into an object: a key that is there keeps its place and takes the new value. -/
def put (members : List (String × Json)) (key : String) (value : Json) : List (String × Json) :=
  if members.any (fun m => m.1 == key) then members.map (fun m => if m.1 == key then (key, value) else m)
  else members ++ [(key, value)]

end Json

end FlatSchema
