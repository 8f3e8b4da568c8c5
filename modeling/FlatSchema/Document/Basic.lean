import FlatSchema.Json.Basic
import FlatSchema.Schema.Definition

/-!
# Schema documents

A schema as it is declared, before its names are resolved. Types are expressions such as `ubyte`, `[Monster]` or
`[float:3]`, and namespaces are written with dots.
-/

namespace FlatSchema

/-- A member of an enum, or a variant of a union. -/
structure MemberDoc where
  name : String
  /-- The value, or the position of the bit in an enum of bit flags. -/
  value : Option Int64 := none
  /-- The payload of a variant, where it differs from the name. -/
  type : Option String := none
  doc : List String := []
deriving BEq, Repr, Inhabited

/-- The number that is given for a member. -/
def MemberDoc.number? (m : MemberDoc) : Option Int := m.value.map Int64.toInt

/-- An enum or a union. -/
structure EnumDoc where
  name : String
  scope : String := ""
  underlying : Option String := none
  isUnion : Bool := false
  values : List MemberDoc := []
  attributes : Attributes := []
  doc : List String := []
  generated : Bool := false
deriving BEq, Repr, Inhabited

/-- A field. -/
structure FieldDoc where
  name : String
  type : String
  /-- A number, a boolean, or the name of an enum member. -/
  default : Option Json := none
  deprecated : Bool := false
  required : Bool := false
  key : Bool := false
  nested : Option String := none
  attributes : Attributes := []
  doc : List String := []
deriving BEq, Repr, Inhabited

/-- A fixed struct or a table. -/
structure StructDoc where
  name : String
  scope : String := ""
  fixed : Bool := false
  fields : List FieldDoc := []
  attributes : Attributes := []
  doc : List String := []
  generated : Bool := false
deriving BEq, Repr, Inhabited

/-- A whole schema. -/
structure SchemaDoc where
  fileName : String := ""
  enums : List EnumDoc := []
  structs : List StructDoc := []
  rootType : Option String := none
  fileIdentifier : Option String := none
  fileExtension : Option String := none
deriving BEq, Repr, Inhabited

/-- The members of a document, in the order in which they are declared. -/
def SchemaDoc.members : List String :=
  ["file_name", "enums", "structs", "root_type", "file_identifier", "file_extension"]

/-- The members of an enum, in the order in which they are declared. -/
def EnumDoc.members : List String :=
  ["name", "namespace", "underlying_type", "is_union", "values", "attributes", "doc", "generated"]

/-- The members of an enum value, in the order in which they are declared. -/
def MemberDoc.members : List String :=
  ["name", "value", "type", "doc"]

/-- The members of a struct, in the order in which they are declared. -/
def StructDoc.members : List String :=
  ["name", "namespace", "fixed", "fields", "attributes", "doc", "generated"]

/-- The members of a field, in the order in which they are declared. -/
def FieldDoc.members : List String :=
  ["name", "type", "default", "deprecated", "required", "key", "nested_flatbuffer", "attributes", "doc"]

end FlatSchema
