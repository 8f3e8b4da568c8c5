import FlatSchema.Schema.Definition

/-!
# Schemas

A schema is the list of its enums and unions and the list of its fixed structs and tables; definitions refer to each other
by their places in these lists. Here are the look-ups along such references and the room that a value takes in place.
-/

namespace FlatSchema

/-- A resolved schema. -/
structure Schema where
  fileName : String := ""
  enums : List EnumDef := []
  structs : List StructDef := []
  /-- The table that a buffer of the schema starts with. -/
  root : Option Nat := none
  fileIdentifier : Option String := none
  fileExtension : Option String := none
deriving DecidableEq, Repr, Inhabited

/-- The room of a value that is no array: a fixed struct has its size, anything else the size of its base type. -/
def flatSize (structs : List StructDef) (t : TypeDesc) : Nat :=
  match t.base with
  | .struct =>
    match t.structRef.bind (structs[·]?) with
    | some s => if s.fixed then s.byteSize else BaseType.struct.size
    | none => BaseType.struct.size
  | b => b.size

/-- The alignment of a value that is no array. -/
def flatAlignment (structs : List StructDef) (t : TypeDesc) : Nat :=
  match t.base with
  | .struct =>
    match t.structRef.bind (structs[·]?) with
    | some s => if s.fixed then s.minAlign else BaseType.struct.size
    | none => BaseType.struct.size
  | b => b.size

/-- The bytes that a value takes in place. An array takes those of all its elements; arrays of arrays have no length. The size is not
bounded: arrays of structs with arrays, which are refused later, may take more than 64 bits can count. -/
def inlineSize (structs : List StructDef) (t : TypeDesc) : Nat :=
  if t.isArray then (if t.element = .array then 0 else flatSize structs t.elementType) * t.length
  else flatSize structs t

/-- The alignment of a value in place. An array is aligned as its elements are. -/
def inlineAlignment (structs : List StructDef) (t : TypeDesc) : Nat :=
  if t.isArray then (if t.element = .array then 1 else flatAlignment structs t.elementType)
  else flatAlignment structs t

namespace Schema

/-- The enum or union that a type refers to. -/
def enumOf? (s : Schema) (t : TypeDesc) : Option EnumDef := t.enumRef.bind (s.enums[·]?)

/-- The fixed struct or table that a type refers to. -/
def structOf? (s : Schema) (t : TypeDesc) : Option StructDef := t.structRef.bind (s.structs[·]?)

/-- The root table. -/
def rootStruct? (s : Schema) : Option StructDef := s.root.bind (s.structs[·]?)

/-- Whether the root is the definition at a given place. -/
def isRoot (s : Schema) (i : Nat) : Bool := s.root == some i

/-- Whether some field holds a buffer that starts with the table at a given place. -/
def isNestedRoot (s : Schema) (i : Nat) : Bool :=
  s.structs.any (fun d => d.fields.any (fun f => f.nested == some i))

/-- The first fixed struct or table with a given qualified name. -/
def findStruct? (s : Schema) (qualified : String) : Option StructDef :=
  s.structs.find? (fun d => d.qualifiedName == qualified)

/-- The first enum or union with a given qualified name. -/
def findEnum? (s : Schema) (qualified : String) : Option EnumDef :=
  s.enums.find? (fun d => d.qualifiedName == qualified)

/-- Whether a type is a fixed struct or a container of fixed structs. -/
def isFixedStruct (s : Schema) (t : TypeDesc) : Bool :=
  (match s.structOf? t with
    | some d => d.fixed
    | none => false) && (t.isStruct || t.isVector || t.isArray)

/-- Whether a type is a table. -/
def isTable (s : Schema) (t : TypeDesc) : Bool :=
  t.isStruct && (match s.structOf? t with
    | some d => !d.fixed
    | none => false)

/-- The bytes that a value takes in place. -/
def inlineSize (s : Schema) (t : TypeDesc) : Nat := FlatSchema.inlineSize s.structs t

/-- The alignment of a value in place. -/
def inlineAlignment (s : Schema) (t : TypeDesc) : Nat := FlatSchema.inlineAlignment s.structs t

/-- The enum that a scalar takes its values from, discriminants included. -/
def scalarEnum? (s : Schema) (t : TypeDesc) : Option EnumDef :=
  if t.isScalar then s.enumOf? t else none

/-- Changes the enum or union at some place. -/
def modifyEnum (s : Schema) (i : Nat) (change : EnumDef → EnumDef) : Schema :=
  { s with enums := s.enums.modify i change }

/-- Changes a member of the enum or union at some place. -/
def modifyVal (s : Schema) (i k : Nat) (change : EnumVal → EnumVal) : Schema :=
  s.modifyEnum i fun e => { e with vals := e.vals.modify k change }

/-- Changes the fixed struct or table at some place. -/
def modifyStruct (s : Schema) (i : Nat) (change : StructDef → StructDef) : Schema :=
  { s with structs := s.structs.modify i change }

/-- Changes a field of the fixed struct or table at some place. -/
def modifyField (s : Schema) (i j : Nat) (change : FieldDef → FieldDef) : Schema :=
  s.modifyStruct i fun d => { d with fields := d.fields.modify j change }

end Schema

end FlatSchema
