import FlatSchema.Output.Target

/-!
# Names and types in Go

The naming rules of Go, the packages of definitions, the names of types, and the casts between enums and their numbers. A name
from another package carries the import of that package.
-/

namespace FlatSchema.Go

open Code

/-- The reserved words of Go. -/
def keywords : List String :=
  ["break", "default", "func", "interface", "select", "case", "defer", "go", "map", "struct", "chan", "else", "goto",
    "package", "switch", "const", "fallthrough", "if", "range", "type", "continue", "for", "import", "return", "var"]

/-- Methods, functions and fields are in upper camel case, local variables in lower camel case. -/
def namer (o : Options) : Namer where
  methods := .upperCamel
  functions := .upperCamel
  fields := .upperCamel
  params := .lowerCamel
  scopeSeparator := "__"
  objectPrefix := o.objectPrefix
  objectSuffix := o.objectSuffix
  keywordSuffix := "_"
  fileExtension := o.extensionOr ".go"
  keywords := keywords

/-- The type of Go for a base type. -/
def numberType : BaseType → String
  | .none | .utype => "uint8"
  | .bool => "bool"
  | .byte => "int8"
  | .ubyte => "byte"
  | .short => "int16"
  | .ushort => "uint16"
  | .int => "int32"
  | .uint => "uint32"
  | .long => "int64"
  | .ulong => "uint64"
  | .float => "float32"
  | .double => "float64"
  | .string | .vector | .struct | .union | .array => "int"

/-- The import of the runtime library. -/
def runtimeImport : String := "flatbuffers \"github.com/google/flatbuffers/go\""

/-- The import of conversions between numbers and text. -/
def strconvImport : String := "\"strconv\""

/-- The import of comparisons of bytes. -/
def bytesImport : String := "\"bytes\""

/-- What generators read, and the namespace of the definition that is being written. -/
structure Site extends Env where
  here : Namespace

/-- The package that the options ask for. -/
def chosenPackage? (o : Options) : Option Namespace :=
  match o.package with
  | some p => if p.isEmpty then none else some (Namespace.ofDotted p)
  | none => none

/-- The namespace whose package a definition goes into. -/
def packageOf (o : Options) (scope : Namespace) : Namespace := (chosenPackage? o).getD scope

/-- The name of the package of a file. -/
def packageName (env : Env) (scope : Namespace) : String :=
  if env.options.oneFile && (chosenPackage? env.options).isNone then env.schema.fileName
  else (packageOf env.options scope).last?.getD env.schema.fileName

/-- The literal of the default of a field. -/
def defaultLiteral (f : FieldDef) : String :=
  if f.type.base = .bool then (if f.constant = "0" then "false" else "true") else f.constant

namespace Site

/-- The name of the runtime library's methods for a scalar type. -/
def method (site : Site) (t : TypeDesc) : String := site.namer.method (numberType t.base)

/-- The method of the runtime library that reads a value. -/
def getter (site : Site) (t : TypeDesc) : String :=
  match t.base with
  | .string => "rcv._tab.ByteVector"
  | .union => "rcv._tab.Union"
  | _ => s!"rcv._tab.Get{site.method t}"

/-- The name of the accessor of a field. -/
def accessor (site : Site) (f : FieldDef) : String := site.namer.function f.name

/-- A name as it is written at this site. A name of another package stands behind the name of that package. -/
def qualify (site : Site) (scope : Namespace) (name : String) : Phrase :=
  if site.options.oneFile || (chosenPackage? site.options).isSome || scope = site.here then name
  else
    let (package, path) :=
      if scope.isRoot then (site.schema.fileName, site.schema.fileName)
      else (site.namer.scope scope, scope.join "/")
    { text := s!"{package}.{name}", imports := [s!"{package} \"{path}\""] }

/-- The type of an enum. -/
def enumName (site : Site) (e : EnumDef) : Phrase := site.qualify e.scope (site.namer.typeName e.name)

/-- The type that reads a struct or table. -/
def structName (site : Site) (d : StructDef) : Phrase := site.qualify d.scope (site.namer.typeName d.name)

/-- The type of objects of a struct or table. -/
def objectName (site : Site) (d : StructDef) : Phrase := site.qualify d.scope (site.namer.objectType d.name)

/-- The type that an accessor gives for a value that is no container. -/
def readAtom (site : Site) (t : TypeDesc) : Except GenError Phrase :=
  match site.schema.scalarEnum? t with
  | some e => .ok (site.enumName e)
  | none =>
    if t.isScalar then .ok (numberType t.base)
    else if t.base = .string then .ok "[]byte"
    else if t.base = .struct then do return site.structName (← site.structOf t)
    else .ok "*flatbuffers.Table"

/-- The type that an accessor gives, of a container for one of its elements. -/
def readType (site : Site) (t : TypeDesc) : Except GenError Phrase := site.readAtom t.innermost

/-- The type of an object's field that is no container. -/
def objectAtom (site : Site) (t : TypeDesc) : Except GenError Phrase :=
  match site.schema.scalarEnum? t with
  | some e => .ok (site.enumName e)
  | none =>
    if t.isScalar then .ok (numberType t.base)
    else if t.base = .string then .ok "string"
    else if t.base = .struct then do return "*" ++ site.objectName (← site.structOf t)
    else do
      let e ← site.enumOf t
      return "*" ++ site.qualify e.scope (site.namer.objectType e.name)

/-- The type of an object's field. -/
def objectType (site : Site) (t : TypeDesc) : Except GenError Phrase := do
  let atom ← site.objectAtom t.innermost
  return t.layers.foldr (fun _ (p : Phrase) => "[]" ++ p) atom

/-- A number as a value of its enum. -/
def castToEnum (site : Site) (t : TypeDesc) (value : String) : Phrase :=
  match site.schema.scalarEnum? t with
  | some e => site.enumName e ++ s!"({value})"
  | none => value

/-- A value of an enum as a number. -/
def castToNumber (site : Site) (t : TypeDesc) (value : String) : String :=
  if (site.schema.scalarEnum? t).isSome then s!"{numberType t.base}({value})" else value

/-- Whether a type is that of plain bytes. -/
def isByte (site : Site) (t : TypeDesc) : Bool :=
  t.base = .ubyte && (site.schema.scalarEnum? t).isNone

/-- The function that writes a fixed struct. -/
def structCreator (site : Site) (d : StructDef) : String := site.namer.function s!"Create{d.name}"

/-- The start of a method of the type that reads a struct or table. -/
def receiver (site : Site) (d : StructDef) : String := s!"func (rcv *{site.namer.typeName d.name})"

end Site

/-- The name of a type that is no container, behind its namespace. -/
def atomName (env : Env) (t : TypeDesc) : Except GenError String :=
  let qualified (scope : Namespace) (name : String) : String :=
    if scope.isRoot then name else s!"{env.namer.scope scope}.{name}"
  match env.schema.scalarEnum? t with
  | some e => .ok (qualified e.scope (env.namer.typeName e.name))
  | none =>
    if t.isScalar then .ok (numberType t.base)
    else if t.base = .string then .ok "[]byte"
    else if t.base = .struct then do
      let d ← env.structOf t
      return qualified d.scope (env.namer.typeName d.name)
    else .ok "*flatbuffers.Table"

/-- The name of a type. -/
def typeName (env : Env) (t : TypeDesc) : Except GenError String := do
  let atom ← atomName env t.innermost
  return t.layers.foldr (fun _ s => "[]" ++ s) atom

/-- Documentation of a definition or member. -/
def docs (doc : List String) : Code := comment "// " doc

/-- A head and a body between braces that is inset below it. The head goes without its brace. -/
def clause (head : Phrase) (body : Code) : Code :=
  line (head ++ " \x7b") ++ inset "\t" body ++ line "\x7d"

/-- Looks for a table field, with what is done when it is there and what is returned when it is not. -/
def ifPresent (f : FieldDef) (found : Code) (fallback : String) : Code :=
  line s!"o := flatbuffers.UOffsetT(rcv._tab.Offset({f.offset}))" ++ clause "if o != 0" found ++
    line s!"return {fallback}"

/-- The line that returns a value. -/
def returns (p : Phrase) : Code := line ("return " ++ p)

/-- Makes a new value for a pointer that is nil. -/
def newIfNil (goal : Phrase) : Code := clause "if obj == nil" (line ("obj = new(" ++ goal ++ ")"))

end FlatSchema.Go
