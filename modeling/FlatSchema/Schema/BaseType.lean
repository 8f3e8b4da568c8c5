/-!
# Base types

The eighteen kinds of value that a buffer can hold, in their canonical order, with their sizes, their ranges and their
names in the schema language.
-/

namespace FlatSchema

/-- The kind of a value. `utype` is the discriminant of a union; `struct` stands for fixed structs and tables alike. -/
inductive BaseType
  | none
  | utype
  | bool
  | byte
  | ubyte
  | short
  | ushort
  | int
  | uint
  | long
  | ulong
  | float
  | double
  | string
  | vector
  | struct
  | union
  | array
deriving DecidableEq, Repr, Inhabited

namespace BaseType

/-- All base types in canonical order. -/
def all : List BaseType :=
  [.none, .utype, .bool, .byte, .ubyte, .short, .ushort, .int, .uint, .long, .ulong, .float, .double, .string, .vector,
    .struct, .union, .array]

/-- The place of a base type in the canonical order. -/
def index (b : BaseType) : Nat :=
  all.idxOf b

/-- The bytes a value occupies in place. What is stored out of line occupies an offset of four bytes. -/
def size : BaseType → Nat
  | .none | .utype | .bool | .byte | .ubyte => 1
  | .short | .ushort => 2
  | .int | .uint | .float => 4
  | .long | .ulong | .double => 8
  | .string | .vector | .struct | .union | .array => 4

/-- Integers, booleans and discriminants. -/
def isInteger : BaseType → Bool
  | .utype | .bool | .byte | .ubyte | .short | .ushort | .int | .uint | .long | .ulong => true
  | _ => false

/-- Floating-point numbers. -/
def isFloat : BaseType → Bool
  | .float | .double => true
  | _ => false

/-- Values held in place without further structure. -/
def isScalar (b : BaseType) : Bool :=
  b.isInteger || b.isFloat

/-- Integers with a sign. -/
def isSigned : BaseType → Bool
  | .byte | .short | .int | .long => true
  | _ => false

/-- Values that are always stored out of line. -/
def isOffset : BaseType → Bool
  | .string | .vector | .union => true
  | _ => false

/-- Values with elements: vectors and arrays. -/
def isContainer : BaseType → Bool
  | .vector | .array => true
  | _ => false

/-- The least and the greatest value of an integer type. -/
def range : BaseType → Option (Int × Int)
  | .bool => some (0, 1)
  | .byte => some (-Int.pow 2 7, Int.pow 2 7 - 1)
  | .utype | .ubyte => some (0, Int.pow 2 8 - 1)
  | .short => some (-Int.pow 2 15, Int.pow 2 15 - 1)
  | .ushort => some (0, Int.pow 2 16 - 1)
  | .int => some (-Int.pow 2 31, Int.pow 2 31 - 1)
  | .uint => some (0, Int.pow 2 32 - 1)
  | .long => some (-Int.pow 2 63, Int.pow 2 63 - 1)
  | .ulong => some (0, Int.pow 2 64 - 1)
  | _ => Option.none

/-- The name of a base type in the schema language. -/
def name : BaseType → String
  | .none => "none"
  | .utype => "utype"
  | .bool => "bool"
  | .byte => "byte"
  | .ubyte => "ubyte"
  | .short => "short"
  | .ushort => "ushort"
  | .int => "int"
  | .uint => "uint"
  | .long => "long"
  | .ulong => "ulong"
  | .float => "float"
  | .double => "double"
  | .string => "string"
  | .vector => "vector"
  | .struct => "struct"
  | .union => "union"
  | .array => "array"

/-- The base type with a given name. -/
def named? (s : String) : Option BaseType :=
  all.find? (fun b => b.name == s)

/-- The names by which a schema may mention a base type: those of scalars and strings, and the sized aliases. -/
def builtins : List (String × BaseType) :=
  [("bool", .bool), ("byte", .byte), ("int8", .byte), ("ubyte", .ubyte), ("uint8", .ubyte), ("short", .short),
    ("int16", .short), ("ushort", .ushort), ("uint16", .ushort), ("int", .int), ("int32", .int), ("uint", .uint),
    ("uint32", .uint), ("long", .long), ("int64", .long), ("ulong", .ulong), ("uint64", .ulong), ("float", .float),
    ("float32", .float), ("double", .double), ("float64", .double), ("string", .string)]

/-- The base type that a name in a schema denotes, if the name is built in. -/
def builtin? (s : String) : Option BaseType :=
  builtins.lookup s

end BaseType

end FlatSchema
