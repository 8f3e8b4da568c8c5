import FlatSchema.Resolve.Default
import FlatSchema.Resolve.TypeExpr

/-!
# Resolving definitions

Enums get the values of their members and the payloads of their variants. Structs and tables get the types, defaults and
nested buffers of their fields, and in front of every union field the hidden field that holds its discriminant.
-/

namespace FlatSchema.Resolve

/-- The integer type that an enum is declared with. -/
def underlying (doc : EnumDoc) : Except LoadError BaseType :=
  if doc.isUnion then .ok .utype
  else
    let expr := doc.underlying.getD "int"
    match BaseType.builtin? expr with
    | some b =>
      if b.isInteger && b != .bool then .ok b
      else .error (.invalidType expr doc.qualifiedName .underlyingNotInteger)
    | none => .error (.invalidType expr doc.qualifiedName .underlyingNotInteger)

/-- The payload of a variant. -/
def payload (names : NameTable) (scope : Namespace) (context name : String) : Except LoadError TypeDesc :=
  if name = "string" then .ok (.plain .string)
  else
    match names.find? name scope with
    | some (.struct i) => .ok (.record i)
    | some (.enum _) => .error (.invalidType name context .payloadIsEnum)
    | none => .error (.unknownType name context)

/-- The value of a member: in an enum of bit flags the declared number is the position of a bit. -/
def memberValue (bitFlags : Bool) (base : BaseType) (context : String) (declared : Int) : Except LoadError Int :=
  if bitFlags then
    if 0 ≤ declared ∧ declared < base.size * 8 then .ok (signed64 (Nat.pow 2 declared.toNat))
    else .error (.enumValue context (toString declared))
  else .ok declared

/-- The name of a member: dots become underscores. -/
def memberName (m : MemberDoc) : String :=
  String.ofList (m.name.toList.map (fun c => if c = '.' then '_' else c))

/-- The members of an enum, none of which has a name that is taken. A member without a value follows the one before it. -/
def members (names : NameTable) (doc : EnumDoc) (base : BaseType) :
    List String → Int → List MemberDoc → Except LoadError (List EnumVal)
  | _, _, [] => .ok []
  | taken, next, m :: rest => do
    let context := doc.qualifiedName
    let declared := m.number?.getD next
    if declared = Int.pow 2 63 - 1 then .error (.enumValue context (toString declared))
    else
      let value ← memberValue (doc.attributes.has "bit_flags") base context declared
      let type ←
        if doc.isUnion then payload names (Namespace.ofDotted doc.scope) context (m.type.getD m.name) else .ok {}
      let name := memberName m
      if taken.contains name then .error (.duplicate .enumValue s!"{context}.{name}")
      else
        let later ← members names doc base (name :: taken) (declared + 1) rest
        return { name, value, payload := type, doc := m.doc } :: later

/-- The variant that stands for no payload. -/
def noPayload : EnumVal := { name := "NONE", value := 0 }

/-- The values of an enum. A union starts with the variant that stands for no payload. -/
def values (names : NameTable) (doc : EnumDoc) (base : BaseType) : Except LoadError (List EnumVal) := do
  if doc.isUnion then
    let variants ← members names doc base [noPayload.name] 1 doc.values
    return noPayload :: variants
  else members names doc base [] 0 doc.values

/-- Resolves an enum or union. -/
def enum (names : NameTable) (doc : EnumDoc) : Except LoadError EnumDef := do
  let base ← underlying doc
  let vals ← values names doc base
  return {
    name := doc.name
    scope := Namespace.ofDotted doc.scope
    doc := doc.doc
    attributes := doc.attributes
    generated := doc.generated
    isUnion := doc.isUnion
    underlying := .plain base
    vals }

/-- The hidden field in front of a field of union type, or of a vector of unions. -/
def hiddenField (doc : FieldDoc) (t : TypeDesc) (i : Nat) : FieldDef where
  name := doc.name ++ FieldDef.discriminantSuffix
  type := if t.isUnion then .discriminant i else .vectorOf (.discriminant i)
  deprecated := doc.deprecated
  required := doc.required && t.isUnionVector

/-- The hidden field that goes with a field, if one does. -/
def hiddenFields (doc : FieldDoc) (t : TypeDesc) (context : String) : Except LoadError (List FieldDef) :=
  if t.isUnion || t.isUnionVector then
    match t.enumRef with
    | some i => .ok [hiddenField doc t i]
    | none => .error (.invalidType doc.type context .unionWithoutDefinition)
  else .ok []

/-- The table whose buffer a field holds. -/
def nested (names : NameTable) (scope : Namespace) (context : String) : Option String → Except LoadError (Option Nat)
  | none => .ok none
  | some name =>
    match names.find? name scope with
    | some (.struct i) => .ok (some i)
    | _ => .error (.unknownType name context)

/-- A declared field of a given type. -/
def field (names : NameTable) (enums : List EnumDef) (scope : Namespace) (context : String) (doc : FieldDoc)
    (t : TypeDesc) : Except LoadError FieldDef := do
  let constant ← Default.constant enums t context doc.default
  let nested ← nested names scope context doc.nested
  return {
    name := doc.name
    type := t
    constant
    doc := doc.doc
    attributes := doc.attributes
    deprecated := doc.deprecated
    required := doc.required
    key := doc.key
    nested }

/-- The fields of a struct or table, none of which has a name that is taken. Hidden fields take their names without being asked,
but a declared field may not have the name of a hidden one in front of it. -/
def fields (names : NameTable) (enums : List EnumDef) (scope : Namespace) (context : String) :
    List String → List FieldDoc → Except LoadError (List FieldDef)
  | _, [] => .ok []
  | taken, doc :: rest => do
    let place := s!"{context}.{doc.name}"
    let t ← TypeExpr.typeOf names enums scope place doc.type
    let hidden ← hiddenFields doc t place
    let f ← field names enums scope place doc t
    let earlier := hidden.map (·.name) ++ taken
    if earlier.contains f.name then .error (.duplicate .field place)
    else
      let later ← fields names enums scope context (f.name :: earlier) rest
      return hidden ++ f :: later

/-- Resolves a fixed struct or table. Its layout is not known yet. -/
def struct (names : NameTable) (enums : List EnumDef) (doc : StructDoc) : Except LoadError StructDef := do
  let scope := Namespace.ofDotted doc.scope
  let fs ← fields names enums scope doc.qualifiedName [] doc.fields
  return {
    name := doc.name
    scope
    doc := doc.doc
    attributes := doc.attributes
    generated := doc.generated
    fixed := doc.fixed
    fields := fs
    sortBySize := !doc.fixed && !doc.attributes.has "original_order"
    hasKey := fs.any (·.key) }

end FlatSchema.Resolve
