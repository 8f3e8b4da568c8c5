import FlatSchema.Schema.BaseType

/-!
# What can be wrong with a schema

The causes for which a schema is refused, while it is read and resolved (`LoadError`) or because it breaks a rule that every
generator relies on (`Violation`), and the wording of each cause in one place.
-/

namespace FlatSchema

/-- Why a type expression is refused. -/
inductive TypeFault
  | underlyingNotInteger
  | payloadIsEnum
  | unionWithoutDefinition
  | unterminated
  | lengthNotNumber
  | lengthZero
  | nestedVector
deriving DecidableEq, Repr

namespace TypeFault

/-- The wording of a fault in a type. -/
def text : TypeFault → String
  | underlyingNotInteger => "enum underlying type must be an integer"
  | payloadIsEnum => "union variants must be tables or strings"
  | unionWithoutDefinition => "union without definition"
  | unterminated => "unterminated '['"
  | lengthNotNumber => "array length must be a number"
  | lengthZero => "array length must be positive"
  | nestedVector => "nested vectors are not supported"

end TypeFault

/-- Why a default, an identifier or an attribute is refused. -/
inductive ValueFault
  | notScalar
  | notNumber
  | notNumberBoolOrMember
  | notFloat
  | notFinite
  | notInteger
  | outOfRange (base : BaseType)
  | identifierLength
  | alignment (least greatest : Nat)
deriving DecidableEq, Repr

namespace ValueFault

/-- The wording of a fault in a value. -/
def text : ValueFault → String
  | notScalar => "only scalar fields can declare a default"
  | notNumber => "expected a number"
  | notNumberBoolOrMember => "expected a number, bool or enum member"
  | notFloat => "expected a float"
  | notFinite => "float default must be finite"
  | notInteger => "expected an integer"
  | outOfRange base => s!"out of range for {base.name}"
  | identifierLength => "must be exactly 4 ASCII characters"
  | alignment least greatest => s!"must be a power of two between {least} and {greatest}"

end ValueFault

/-- What is declared twice. -/
inductive DefKind
  | enum
  | union
  | struct
  | table
  | enumValue
  | field
deriving DecidableEq, Repr

namespace DefKind

/-- The word for a kind of definition. -/
def text : DefKind → String
  | enum => "enum"
  | union => "union"
  | struct => "struct"
  | table => "table"
  | enumValue => "enum value"
  | field => "field"

end DefKind

/-- What a name that is no identifier was meant to name. -/
inductive NameKind
  | definition
  | component
  | enumValue
  | field
deriving DecidableEq, Repr

namespace NameKind

/-- The word for what a name stands for. -/
def text : NameKind → String
  | definition => "definition"
  | component => "namespace component"
  | enumValue => "enum value"
  | field => "field"

end NameKind

/-- What is wrong with a field of a table, or with a key. -/
inductive FieldFault
  | arrayInTable
  | vectorOfVectors
  | requiredScalar
  | nestedBuffer
  | keyType
deriving DecidableEq, Repr

namespace FieldFault

/-- The wording of a fault in a field. -/
def text : FieldFault → String
  | arrayInTable => "arrays are only allowed in structs"
  | vectorOfVectors => "vectors of vectors are not supported"
  | requiredScalar => "scalar fields cannot be required"
  | nestedBuffer => "nested_flatbuffer requires a [ubyte] field naming a table"
  | keyType => "key fields must be scalars or strings"

end FieldFault

/-- A rule that a schema breaks. Definitions are named without their namespaces. -/
inductive Violation
  | badName (kind : NameKind) (name : String)
  | enumNotInteger (enum : String)
  | memberTwice (member enum : String)
  | badPayload (union variant : String)
  | emptyStruct (struct : String)
  | structField (struct field : String)
  | arrayElement (struct field : String)
  | deprecatedInStruct (struct field : String)
  | badField (owner field : String) (fault : FieldFault)
  | manyKeys (owner : String)
  | rootFixed (struct : String)
  | rootTypeFixed (name : String)
  | manyFields (table : String)
  | largeStruct (struct : String)
deriving DecidableEq, Repr

namespace Violation

/-- The wording of a broken rule. -/
def text : Violation → String
  | badName kind name => s!"invalid {kind.text} name '{name}'"
  | enumNotInteger enum => s!"enum '{enum}' must have an integer underlying type"
  | memberTwice member enum => s!"Duplicate enum value name '{member}' in enum '{enum}'"
  | badPayload union variant => s!"union '{union}' variant '{variant}' must be a table or a string"
  | emptyStruct struct => s!"struct '{struct}' must declare at least one field"
  | structField struct field => s!"struct '{struct}' field '{field}' must be a scalar, struct or array"
  | arrayElement struct field => s!"struct '{struct}' field '{field}': arrays must hold scalars or array-free structs"
  | deprecatedInStruct struct field => s!"struct '{struct}' field '{field}' cannot be deprecated"
  | badField owner field fault => s!"'{owner}' field '{field}': {fault.text}"
  | manyKeys owner => s!"'{owner}' declares more than one key field"
  | rootFixed struct => s!"root type '{struct}' must be a table"
  | rootTypeFixed name => s!"root_type '{name}' must be a table"
  | manyFields table => s!"table '{table}' has too many fields"
  | largeStruct struct => s!"struct '{struct}' is too large"

end Violation

/-- Why a schema cannot be loaded. -/
inductive LoadError
  /-- The text is no JSON, or not the JSON of a schema document. -/
  | malformed
  /-- The file cannot be read. -/
  | unreadable
  | unknownType (name context : String)
  | invalidType (expr context : String) (fault : TypeFault)
  | invalidValue (value context : String) (fault : ValueFault)
  | duplicate (kind : DefKind) (name : String)
  | typeNotFound (name : String)
  | circular (path : List String)
  | enumValue (enum value : String)
  | layoutMismatch (struct : String) (declared calculated : Nat)
  | violation (rule : Violation)
deriving DecidableEq, Repr

namespace LoadError

/-- The wording of an error. -/
def message : LoadError → String
  | malformed => "parse error: JSON error"
  | unreadable => "parse error: IO error"
  | unknownType name context => s!"parse error: unknown type '{name}' referenced in '{context}'"
  | invalidType expr context fault => s!"parse error: invalid type expression '{expr}' in '{context}': {fault.text}"
  | invalidValue value context fault => s!"parse error: invalid value '{value}' for '{context}': {fault.text}"
  | duplicate kind name => s!"parse error: duplicate {kind.text} definition: '{name}'"
  | typeNotFound name => s!"type '{name}' not found"
  | circular path => "circular type reference detected: " ++ " -> ".intercalate path
  | enumValue enum value => s!"invalid enum value '{value}' for enum '{enum}'"
  | layoutMismatch struct declared calculated =>
    s!"layout mismatch for struct '{struct}': declared {declared} bytes, calculated {calculated}"
  | violation rule => s!"validation error: {rule.text}"

end LoadError

end FlatSchema
