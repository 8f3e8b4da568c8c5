import FlatSchema.Json.Printer
import FlatSchema.Output.Target

/-!
# JSON Schema

A schema for the JSON form of buffers: one entry for each definition, with references between them, and a reference to the root
table.
-/

namespace FlatSchema.JsonSchema

open Code

/-- Names stay as they are; those of a namespace stand in front with underscores. -/
def namer (o : Options) : Namer where
  variantSeparator := "."
  scopeSeparator := "_"
  fileExtension := o.extensionOr ".schema.json"

/-- The version of JSON Schema that is written. -/
def draft : String := "https://json-schema.org/draft/2019-09/schema"

/-- The path to a definition inside the document. -/
def path (env : Env) (scope : Namespace) (name : String) : String :=
  "#/definitions/" ++ env.namer.scopedType scope name

/-- A reference to a definition. -/
def reference (env : Env) (scope : Namespace) (name : String) : Json :=
  .object [("$ref", .string (path env scope name))]

/-- The schema of values of a named type. -/
def ofType (name : String) : Json := .object [("type", .string name)]

/-- The schema of values of a type that is no container, given the schema of payloads of a union. -/
def atomSchema (env : Env) (union : TypeDesc → Except GenError Json) (t : TypeDesc) : Except GenError Json :=
  match env.schema.scalarEnum? t with
  | some e => .ok (reference env e.scope e.name)
  | none =>
    match t.base with
    | .bool => .ok (ofType "boolean")
    | .float | .double => .ok (ofType "number")
    | .string => .ok (ofType "string")
    | .struct => do
      let d ← env.structOf t
      return reference env d.scope d.name
    | .union => union t
    | b =>
      match b.range with
      | some (low, high) => .ok (.object [("type", .string "integer"), ("minimum", .number (.int low)),
          ("maximum", .number (.int high))])
      | none => .ok (.object [])

/-- The schema of values of a type, given the schema of payloads of a union. -/
def schemaWith (env : Env) (union : TypeDesc → Except GenError Json) (t : TypeDesc) : Except GenError Json := do
  let atom ← atomSchema env union t.innermost
  return t.layers.foldr (fun _ items => .object [("type", .string "array"), ("items", items)]) atom

/-- The schema of the payload of a variant. No payload is a union. -/
def payloadSchema (env : Env) (t : TypeDesc) : Except GenError Json :=
  schemaWith env (fun _ => .error .danglingType) t

/-- The schema of values of a type. The payload of a union is one of those of its variants. -/
def typeSchema (env : Env) (t : TypeDesc) : Except GenError Json :=
  schemaWith env (fun u => do
    let variants ← (← env.enumOf u).variants.mapM fun v => payloadSchema env v.payload
    return .object [("anyOf", .array variants)]) t

/-- Documentation as one text, unless that is empty. -/
def description? (doc : List String) : Option Json :=
  let text := "\n".intercalate (doc.map trimmed)
  if text.isEmpty then none else some (.string text)

/-- Members with another one that may be absent. -/
def putSome (members : List (String × Json)) (key : String) : Option Json → List (String × Json)
  | some v => Json.put members key v
  | none => members

/-- The schema of a field's values, with the length of an array and what is said about the field. -/
def fieldSchema (env : Env) (f : FieldDef) : Except GenError Json := do
  let members := match ← typeSchema env f.type with
    | .object ms => ms
    | _ => []
  let count : Option Json := if f.type.isArray then some (.number (.int f.type.length)) else none
  let deprecated : Option Json := if f.deprecated then some (.bool true) else none
  return .object (putSome (putSome (putSome (putSome members "minItems" count) "maxItems" count)
    "deprecated" deprecated) "description" (description? f.doc))

/-- The schema of a struct or table. -/
def objectSchema (env : Env) (d : StructDef) : Except GenError Json := do
  let fields ← d.fields.mapM fun f => do return (f.name, ← fieldSchema env f)
  let properties := fields.foldl (fun ms (name, s) => Json.put ms name s) []
  let required := (d.fields.filter (·.required)).map fun f => Json.string f.name
  return .object (putSome [("type", .string "object")] "description" (description? d.doc) ++
    [("properties", .object properties)] ++ (if required.isEmpty then [] else [("required", .array required)]) ++
    [("additionalProperties", .bool false)])

/-- The schema of an enum or of the variants of a union. -/
def enumSchema (e : EnumDef) : Json :=
  .object [("type", .string "string"), ("enum", .array (e.vals.map fun v => .string v.name))]

/-- A text with more blanks after every line break. -/
def deeper (blanks text : String) : String :=
  ("\n" ++ blanks).intercalate ((text.toList.splitOn '\n').map String.ofList)

/-- The entry of a definition, after a comma if it is not the first. -/
def entry (env : Env) (state : FileState) (scope : Namespace) (name : String) (schema : Json) : Code :=
  let key := Json.quote (env.namer.scopedType scope name)
  state.apart [.raw ",\n"] [.raw (s!"    {key}: " ++ deeper "    " schema.pretty)]

/-- The entry of a struct or table. -/
def objectEntry (env : Env) (state : FileState) (d : StructDef) : Except GenError Code := do
  return entry env state d.scope d.name (← objectSchema env d)

/-- The start of the document. -/
def header (state : FileState) : Code :=
  lines ["\x7b", s!"  \"$schema\": \"{draft}\","] ++
    (if state.emitted = 0 then [.raw "  \"definitions\": \x7b"] else line "  \"definitions\": \x7b")

/-- The end of the document: the root table, if there is one. -/
def footer (env : Env) (state : FileState) : Code :=
  (if state.emitted > 0 then [.raw "\n  "] else []) ++
    (match env.schema.rootStruct? with
      | some d => .raw "\x7d,\n" :: line s!"  \"$ref\": \"{path env d.scope d.name}\""
      | none => [.raw "\x7d\n"]) ++
    line "\x7d"

/-- JSON Schema with its options chosen. -/
def target (o : Options) : Target where
  language := .jsonSchema
  namer := namer o
  indentUnit := "  "
  layout := .oneFile
  typeName env t := do return (← typeSchema env t).compact
  header _ state := .ok (header state)
  footer env state := .ok (footer env state)
  enumCode env state e := .ok (entry env state e.scope e.name (enumSchema e))
  structCode env state _ d := objectEntry env state d
  tableCode env state _ d := objectEntry env state d
  singlePath env := env.schema.fileName ++ env.namer.fileExtension

end FlatSchema.JsonSchema
