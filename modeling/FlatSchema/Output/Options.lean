import FlatSchema.Json.Record

/-!
# Options of generation

What a caller can choose about generated code, and the JSON form of these choices.
-/

namespace FlatSchema

/-- Options that all generators share. -/
structure Options where
  /-- One file for everything. -/
  oneFile : Bool := false
  /-- Classes of plain objects that pack and unpack. -/
  objectApi : Bool := false
  /-- Functions that change values in place. -/
  mutableBuffer : Bool := false
  /-- Imports for every definition that is mentioned. -/
  dependencies : Bool := true
  /-- Qualified names as strings. -/
  nameStrings : Bool := false
  objectPrefix : String := ""
  objectSuffix : String := "T"
  /-- At the end of the name of a single file. -/
  fileSuffix : String := "_generated"
  /-- In place of the extension of the language. -/
  fileExtension : Option String := none
  /-- In place of the packages of the definitions. -/
  package : Option String := none
deriving DecidableEq, Repr, Inhabited

namespace Options

/-- The extension of files, with one dot in front. -/
def extensionOr (o : Options) (default : String) : String :=
  match o.fileExtension with
  | some e => "." ++ String.ofList (e.toList.dropWhile (· == '.'))
  | none => default

/-- The members of the JSON form, in the order in which they are declared. -/
def members : List String :=
  ["one_file", "generate_object_based_api", "mutable_buffer", "include_dependence_headers", "generate_name_strings",
    "object_prefix", "object_suffix", "filename_suffix", "filename_extension", "go_namespace"]

/-- Reads options. Unknown members of an object do not count; what is left out keeps its default. -/
def ofJson? (j : Json) : Option Options := do
  let known := match j with
    | .object ms => .object (ms.filter fun m => members.contains m.1)
    | v => v
  match ← Json.record? members known with
  | [oneFile, objectApi, mutableBuffer, dependencies, nameStrings, objectPrefix, objectSuffix, fileSuffix, fileExtension,
      package] =>
    return {
      oneFile := ← Json.defaulted false Json.bool? oneFile
      objectApi := ← Json.defaulted false Json.bool? objectApi
      mutableBuffer := ← Json.defaulted false Json.bool? mutableBuffer
      dependencies := ← Json.defaulted true Json.bool? dependencies
      nameStrings := ← Json.defaulted false Json.bool? nameStrings
      objectPrefix := ← Json.defaulted "" Json.string? objectPrefix
      objectSuffix := ← Json.defaulted "T" Json.string? objectSuffix
      fileSuffix := ← Json.defaulted "_generated" Json.string? fileSuffix
      fileExtension := ← Json.optional Json.string? fileExtension
      package := ← Json.optional Json.string? package }
  | _ => none

/-- The JSON form of options. -/
def toJson (o : Options) : Json :=
  let optional : Option String → Json
    | some s => .string s
    | none => .null
  .object (members.zip [
    .bool o.oneFile,
    .bool o.objectApi,
    .bool o.mutableBuffer,
    .bool o.dependencies,
    .bool o.nameStrings,
    .string o.objectPrefix,
    .string o.objectSuffix,
    .string o.fileSuffix,
    optional o.fileExtension,
    optional o.package])

end Options

end FlatSchema
