import FlatSchema.Document.Basic
import FlatSchema.Json.Printer

/-!
# Writing schema documents

Every record is written as an object with all its members, in the order in which they are declared; what is absent is null.
-/

namespace FlatSchema

/-- An optional value, null if absent. -/
def Json.ofOption (write : α → Json) : Option α → Json
  | some a => write a
  | none => .null

/-- Documentation lines. -/
def Json.ofStrings (lines : List String) : Json :=
  .array (lines.map .string)

/-- Attributes as an object of strings. -/
def Attributes.toJson (a : Attributes) : Json :=
  .object (a.map (fun m => (m.1, .string m.2)))

/-- The JSON form of a member of an enum. -/
def MemberDoc.toJson (m : MemberDoc) : Json :=
  .object (MemberDoc.members.zip [
    .string m.name,
    Json.ofOption (fun v => .number (.int v.toInt)) m.value,
    Json.ofOption .string m.type,
    Json.ofStrings m.doc])

/-- The JSON form of an enum or union. -/
def EnumDoc.toJson (e : EnumDoc) : Json :=
  .object (EnumDoc.members.zip [
    .string e.name,
    .string e.scope,
    Json.ofOption .string e.underlying,
    .bool e.isUnion,
    .array (e.values.map MemberDoc.toJson),
    e.attributes.toJson,
    Json.ofStrings e.doc,
    .bool e.generated])

/-- The JSON form of a field. -/
def FieldDoc.toJson (f : FieldDoc) : Json :=
  .object (FieldDoc.members.zip [
    .string f.name,
    .string f.type,
    f.default.getD .null,
    .bool f.deprecated,
    .bool f.required,
    .bool f.key,
    Json.ofOption .string f.nested,
    f.attributes.toJson,
    Json.ofStrings f.doc])

/-- The JSON form of a fixed struct or table. -/
def StructDoc.toJson (s : StructDoc) : Json :=
  .object (StructDoc.members.zip [
    .string s.name,
    .string s.scope,
    .bool s.fixed,
    .array (s.fields.map FieldDoc.toJson),
    s.attributes.toJson,
    Json.ofStrings s.doc,
    .bool s.generated])

namespace SchemaDoc

/-- The JSON form of a document. -/
def toJson (d : SchemaDoc) : Json :=
  .object (SchemaDoc.members.zip [
    .string d.fileName,
    .array (d.enums.map EnumDoc.toJson),
    .array (d.structs.map StructDoc.toJson),
    Json.ofOption .string d.rootType,
    Json.ofOption .string d.fileIdentifier,
    Json.ofOption .string d.fileExtension])

/-- The text of a document, without any space. -/
def text (d : SchemaDoc) : String := d.toJson.compact

end SchemaDoc

end FlatSchema
