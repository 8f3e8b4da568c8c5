import FlatSchema.Output.Target

/-!
# Names and expressions in C#

The naming rules of C#, the names of types, the expressions that read and write scalars, and the spelling of defaults.
-/

namespace FlatSchema.CSharp

open Code

/-- The reserved words of C#. -/
def keywords : List String :=
  ["abstract", "as", "base", "bool", "break", "byte", "case", "catch", "char", "checked", "class", "const", "continue",
    "decimal", "default", "delegate", "do", "double", "else", "enum", "event", "explicit", "extern", "false", "finally",
    "fixed", "float", "for", "foreach", "goto", "if", "implicit", "in", "int", "interface", "internal", "is", "lock",
    "long", "namespace", "new", "null", "object", "operator", "out", "override", "params", "private", "protected",
    "public", "readonly", "ref", "return", "sbyte", "sealed", "short", "sizeof", "stackalloc", "static", "string",
    "struct", "switch", "this", "throw", "true", "try", "typeof", "uint", "ulong", "unchecked", "unsafe", "ushort",
    "using", "virtual", "void", "volatile", "while"]

/-- Members are in upper camel case, local variables in lower camel case; a reserved word is marked in front. -/
def namer (o : Options) : Namer where
  constants := .upperCamel
  methods := .upperCamel
  functions := .upperCamel
  fields := .upperCamel
  params := .lowerCamel
  variantSeparator := "."
  scopeSeparator := "."
  objectPrefix := o.objectPrefix
  objectSuffix := o.objectSuffix
  keywordPrefix := "@"
  fileExtension := o.extensionOr ".cs"
  keywords := keywords

/-- The type of C# for a base type. -/
def numberType : BaseType → String
  | .none | .utype | .ubyte => "byte"
  | .bool => "bool"
  | .byte => "sbyte"
  | .short => "short"
  | .ushort => "ushort"
  | .int => "int"
  | .uint => "uint"
  | .long => "long"
  | .ulong => "ulong"
  | .float => "float"
  | .double => "double"
  | .string => "string"
  | .vector | .struct | .union | .array => "int"

/-- The word for a scalar type in the methods of the runtime library. -/
def methodSuffix : BaseType → String
  | .none | .utype | .ubyte => "Byte"
  | .bool => "Bool"
  | .byte => "Sbyte"
  | .short => "Short"
  | .ushort => "Ushort"
  | .int => "Int"
  | .uint => "Uint"
  | .long => "Long"
  | .ulong => "Ulong"
  | .float => "Float"
  | .double => "Double"
  | .string | .vector | .struct | .union | .array => "Int"

/-- The namespaces that structs and tables use. -/
def usings : List String :=
  ["global::System", "global::System.Collections.Generic", "global::Google.FlatBuffers"]

/-- A text between braces. -/
def inBraces (s : String) : String := "\x7b " ++ s ++ " \x7d"

/-- A property whose value is computed by some statements. -/
def getter (body : String) : String := inBraces ("get " ++ inBraces body)

/-- The expression that reads a scalar at some place. -/
def readScalar (t : TypeDesc) (place : String) : String :=
  match t.base with
  | .bool => s!"0!=__p.bb.Get({place})"
  | .ubyte | .utype | .none => s!"__p.bb.Get({place})"
  | b => s!"__p.bb.Get{methodSuffix b}({place})"

/-- The statement that writes a scalar at some place. -/
def writeScalar (t : TypeDesc) (place value : String) : String :=
  match t.base with
  | .bool => s!"__p.bb.Put({place}, (byte)({value} ? 1 : 0))"
  | .ubyte | .utype | .none => s!"__p.bb.Put({place}, {value})"
  | b => s!"__p.bb.Put{methodSuffix b}({place}, {value})"

/-- The type of an enum. -/
def enumName (env : Env) (e : EnumDef) : String := env.namer.scopedType e.scope e.name

/-- The type of a struct or table. -/
def structName (env : Env) (d : StructDef) : String := env.namer.scopedType d.scope d.name

/-- The type of a value that is no container. -/
def atomType (env : Env) (t : TypeDesc) : Except GenError String :=
  match env.schema.scalarEnum? t with
  | some e => .ok (enumName env e)
  | none =>
    if t.isScalar then .ok (numberType t.base)
    else if t.base = .string then .ok "string"
    else if t.base = .struct then do return structName env (← env.structOf t)
    else .ok "TTable"

/-- The type of a value as it is read, of a container the type of its elements. -/
def readType (env : Env) (t : TypeDesc) : Except GenError String := atomType env t.innermost

/-- A number as a value of its enum. -/
def castToEnum (env : Env) (t : TypeDesc) (value : String) : String :=
  match env.schema.scalarEnum? t with
  | some e => s!"({enumName env e}){value}"
  | none => value

/-- A value of an enum as a number. -/
def castToNumber (env : Env) (t : TypeDesc) (value : String) : String :=
  if (env.schema.scalarEnum? t).isSome then s!"({numberType t.base}){value}" else value

/-- The literal of a truth value. -/
def boolLiteral (constant : String) : String := if constant = "0" then "false" else "true"

/-- The literal of a scalar constant. -/
def literal (t : TypeDesc) (constant : String) : String :=
  match t.base with
  | .bool => boolLiteral constant
  | .float => constant ++ "f"
  | .double =>
    if constant.toList.any (fun c => c == '.' || c == 'e' || c == 'E') then s!"(double){constant}" else constant ++ ".0"
  | b => if t.isScalar then s!"({numberType b}){constant}" else constant

/-- The default of a scalar field: the member of its enum that has its value, if there is one, or a literal. -/
def defaultValue (env : Env) (f : FieldDef) : String :=
  match env.schema.scalarEnum? f.type with
  | some e =>
    let member? := if e.isBitFlags then none else (readSigned? 64 f.constant).bind e.withValue?
    match member? with
    | some v => s!"{enumName env e}.{env.namer.variant v.name}"
    | none => s!"({enumName env e}){f.constant}"
  | none => literal f.type f.constant

/-- The name of a field's member. A member cannot be named like its type. -/
def member (env : Env) (d : StructDef) (f : FieldDef) : String :=
  let name := env.namer.field f.name
  if name = env.namer.typeName d.name then name ++ "_" else name

/-- Documentation of a definition or member. -/
def docs (doc : List String) : Code := comment "/// " doc

end FlatSchema.CSharp
