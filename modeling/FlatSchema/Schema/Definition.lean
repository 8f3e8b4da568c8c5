import FlatSchema.Schema.Namespace
import FlatSchema.Schema.TypeDesc
import FlatSchema.Text.Integer

/-!
# Definitions

What a schema declares: enums and unions with their members, fixed structs and tables with their fields, and the
attributes that any of them may carry.
-/

namespace FlatSchema

/-- Attributes by key. The keys ascend and no key occurs twice. -/
abbrev Attributes := List (String × String)

namespace Attributes

/-- Sets an attribute; a key that is there takes the new value. -/
def insert (key value : String) : Attributes → Attributes
  | [] => [(key, value)]
  | (k, v) :: rest =>
    if key < k then (key, value) :: (k, v) :: rest
    else if key = k then (key, value) :: rest
    else (k, v) :: insert key value rest

/-- The value of an attribute. -/
def get? (a : Attributes) (key : String) : Option String := a.lookup key

/-- Whether an attribute is there. -/
def has (a : Attributes) (key : String) : Bool := (a.get? key).isSome

end Attributes

/-- A field of a fixed struct or table. -/
structure FieldDef where
  name : String
  type : TypeDesc
  /-- The default value as text. -/
  constant : String := "0"
  /-- In a table the place in the table of offsets, in a fixed struct the distance from its start. -/
  offset : Nat := 0
  doc : List String := []
  attributes : Attributes := []
  /-- The field keeps its slot and is no longer accessed. -/
  deprecated : Bool := false
  required : Bool := false
  /-- Sorted vectors of the table are searched by this field. -/
  key : Bool := false
  /-- The bytes after the field that belong to no field. -/
  padding : Nat := 0
  /-- The table whose buffer the field holds. -/
  nested : Option Nat := none
deriving DecidableEq, Repr, Inhabited

namespace FieldDef

/-- The end of the name of a discriminant: it follows the name of the union field. -/
def discriminantSuffix : String := "_type"

/-- The slot of a table field: the first two places of the table of offsets are taken. -/
def slot (f : FieldDef) : Nat := (f.offset - 4) / 2

/-- Whether the field holds the discriminant of a union field. -/
def isDiscriminant (f : FieldDef) : Bool := f.type.isDiscriminant

/-- The name of the union field that a discriminant belongs to. -/
def unionName? (f : FieldDef) : Option String :=
  if f.isDiscriminant then
    let n := f.name.toList
    let e := discriminantSuffix.toList
    if e.isSuffixOf n then some (String.ofList (n.take (n.length - e.length))) else none
  else none

end FieldDef

/-- A fixed struct or a table. -/
structure StructDef where
  name : String
  scope : Namespace := {}
  doc : List String := []
  attributes : Attributes := []
  /-- The definition belongs to a schema that includes this one and is not written again. -/
  generated : Bool := false
  /-- A fixed struct is laid out in place; a table is not. -/
  fixed : Bool := false
  fields : List FieldDef := []
  /-- The fields of a table are written from the largest to the smallest. -/
  sortBySize : Bool := false
  hasKey : Bool := false
  minAlign : Nat := 1
  byteSize : Nat := 0
deriving DecidableEq, Repr, Inhabited

namespace StructDef

/-- The name with its namespace. -/
def qualifiedName (s : StructDef) : String := s.scope.qualify s.name "."

/-- The first key field. -/
def keyField? (s : StructDef) : Option FieldDef := s.fields.find? (·.key)

/-- The first field with a given name. -/
def field? (s : StructDef) (name : String) : Option FieldDef := s.fields.find? (fun f => f.name == name)

/-- The fields that are not deprecated. -/
def liveFields (s : StructDef) : List FieldDef := s.fields.filter (fun f => !f.deprecated)

end StructDef

/-- A member of an enum, or a variant of a union with the type of its payload. -/
structure EnumVal where
  name : String
  /-- A signed 64-bit integer. -/
  value : Int
  payload : TypeDesc := {}
  doc : List String := []
deriving DecidableEq, Repr, Inhabited

/-- Whether the member is the zero of its enum; in a union it stands for no payload. -/
def EnumVal.isZero (v : EnumVal) : Bool := v.value == 0

/-- An enum or a union. -/
structure EnumDef where
  name : String
  scope : Namespace := {}
  doc : List String := []
  attributes : Attributes := []
  /-- The definition belongs to a schema that includes this one and is not written again. -/
  generated : Bool := false
  isUnion : Bool := false
  /-- The integer type that holds the members. -/
  underlying : TypeDesc := {}
  vals : List EnumVal := []
deriving DecidableEq, Repr, Inhabited

namespace EnumDef

/-- The name with its namespace. -/
def qualifiedName (e : EnumDef) : String := e.scope.qualify e.name "."

/-- The first member with a given value. -/
def withValue? (e : EnumDef) (v : Int) : Option EnumVal := e.vals.find? (fun m => m.value == v)

/-- The first member with a given name. -/
def val? (e : EnumDef) (name : String) : Option EnumVal := e.vals.find? (fun m => m.name == name)

/-- The least value of a member. -/
def least? (e : EnumDef) : Option Int := (e.vals.map (·.value)).min?

/-- The greatest value of a member. -/
def greatest? (e : EnumDef) : Option Int := (e.vals.map (·.value)).max?

/-- Whether the members are bits that combine. -/
def isBitFlags (e : EnumDef) : Bool := e.attributes.has "bit_flags"

/-- Whether a variant carries a string. -/
def hasStringVariant (e : EnumDef) : Bool := e.vals.any (fun v => v.payload.isString)

/-- The text of a value: an unsigned 64-bit enum reads the bits of the value without a sign. -/
def valueText (e : EnumDef) (v : Int) : String :=
  if e.underlying.base = .ulong then toString (unsigned64 v) else toString v

/-- The variants with a payload. -/
def variants (e : EnumDef) : List EnumVal := e.vals.filter (fun v => !v.isZero)

end EnumDef

/-- Whether a text is an identifier: letters, digits and underscores, with no digit in front. All are ASCII. -/
def isIdentifier (s : String) : Bool :=
  match s.toList with
  | [] => false
  | c :: rest => (c.isAlpha || c == '_') && rest.all (fun d => d.isAlphanum || d == '_')

end FlatSchema
