import FlatSchema.Document.Basic
import FlatSchema.Json.Reader
import FlatSchema.Json.Record

/-!
# Reading schema documents

A document and everything declared in it are JSON records. Names have to be there, and the type of a field; all else has a
default.
-/

namespace FlatSchema

open Json

/-- Reads attributes: an object of strings, in which the last of several equal keys counts. -/
def Attributes.ofJson? : Json → Option Attributes
  | .object ms => ms.foldlM (fun a m => (string? m.2).map fun v => Attributes.insert m.1 v a) []
  | _ => none

/-- Reads a member of an enum. -/
def MemberDoc.ofJson? (j : Json) : Option MemberDoc := do
  match ← record? MemberDoc.members j with
  | [name, value, type, doc] =>
    return {
      name := ← required string? name
      value := ← optional int64? value
      type := ← optional string? type
      doc := ← defaulted [] (list? string?) doc }
  | _ => none

/-- Reads an enum or union. -/
def EnumDoc.ofJson? (j : Json) : Option EnumDoc := do
  match ← record? EnumDoc.members j with
  | [name, scope, underlying, isUnion, values, attributes, doc, generated] =>
    return {
      name := ← required string? name
      scope := ← defaulted "" string? scope
      underlying := ← optional string? underlying
      isUnion := ← defaulted false bool? isUnion
      values := ← defaulted [] (list? MemberDoc.ofJson?) values
      attributes := ← defaulted [] Attributes.ofJson? attributes
      doc := ← defaulted [] (list? string?) doc
      generated := ← defaulted false bool? generated }
  | _ => none

/-- Reads a field. -/
def FieldDoc.ofJson? (j : Json) : Option FieldDoc := do
  match ← record? FieldDoc.members j with
  | [name, type, default, deprecated, required, key, nested, attributes, doc] =>
    return {
      name := ← Json.required string? name
      type := ← Json.required string? type
      default := ← optional (fun v => some (merged v)) default
      deprecated := ← defaulted false bool? deprecated
      required := ← defaulted false bool? required
      key := ← defaulted false bool? key
      nested := ← optional string? nested
      attributes := ← defaulted [] Attributes.ofJson? attributes
      doc := ← defaulted [] (list? string?) doc }
  | _ => none

/-- Reads a fixed struct or table. -/
def StructDoc.ofJson? (j : Json) : Option StructDoc := do
  match ← record? StructDoc.members j with
  | [name, scope, fixed, fields, attributes, doc, generated] =>
    return {
      name := ← required string? name
      scope := ← defaulted "" string? scope
      fixed := ← defaulted false bool? fixed
      fields := ← defaulted [] (list? FieldDoc.ofJson?) fields
      attributes := ← defaulted [] Attributes.ofJson? attributes
      doc := ← defaulted [] (list? string?) doc
      generated := ← defaulted false bool? generated }
  | _ => none

namespace SchemaDoc

/-- Reads a document. -/
def ofJson? (j : Json) : Option SchemaDoc := do
  match ← record? SchemaDoc.members j with
  | [fileName, enums, structs, rootType, fileIdentifier, fileExtension] =>
    return {
      fileName := ← defaulted "" string? fileName
      enums := ← defaulted [] (list? EnumDoc.ofJson?) enums
      structs := ← defaulted [] (list? StructDoc.ofJson?) structs
      rootType := ← optional string? rootType
      fileIdentifier := ← optional string? fileIdentifier
      fileExtension := ← optional string? fileExtension }
  | _ => none

/-- Reads the text of a document. -/
def read? (text : String) : Option SchemaDoc :=
  (Json.read? text).bind ofJson?

end SchemaDoc

end FlatSchema
