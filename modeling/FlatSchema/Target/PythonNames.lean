import FlatSchema.Output.Target

/-!
# Names and literals in Python

The naming rules of Python, the names of types, the spelling of defaults, and the way in which a definition of another module is
brought into reach.
-/

namespace FlatSchema.Python

open Code

/-- The reserved words of Python. -/
def keywords : List String :=
  ["False", "None", "True", "and", "as", "assert", "async", "await", "break", "class", "continue", "def", "del", "elif",
    "else", "except", "finally", "for", "from", "global", "if", "import", "in", "is", "lambda", "nonlocal", "not", "or",
    "pass", "raise", "return", "try", "while", "with", "yield"]

/-- Names stay as they are, but constants are capitals and functions are in snake case. -/
def namer (o : Options) : Namer where
  constants := .allUpper
  functions := .snake
  variantSeparator := "."
  scopeSeparator := "."
  objectPrefix := o.objectPrefix
  objectSuffix := o.objectSuffix
  keywordSuffix := "_"
  escapeFirst := true
  fileExtension := o.extensionOr ".py"
  keywords := keywords

/-- The number type of the runtime library for a base type. -/
def numberType : BaseType → String
  | .none | .utype | .ubyte => "uint8"
  | .bool => "bool"
  | .byte => "int8"
  | .short => "int16"
  | .ushort => "uint16"
  | .int => "int32"
  | .uint => "uint32"
  | .long => "int64"
  | .ulong => "uint64"
  | .float => "float32"
  | .double => "float64"
  | .string | .vector | .struct | .union | .array => "int"

/-- The name of a number type inside the names of the runtime library. -/
def numberSuffix (t : TypeDesc) : String := Case.upperCamel.apply (numberType t.base)

/-- The object of the runtime library that reads and writes values of a scalar type. -/
def flags (t : TypeDesc) : String := s!"flatbuffers.number_types.{numberSuffix t}Flags"

/-- The type of offsets in the runtime library. -/
def uoffset : String := "flatbuffers.number_types.UOffsetTFlags.py_type"

/-- The import by which the array library is found. -/
def numpyImport : String := "from flatbuffers.compat import import_numpy"

/-- The literal of a constant of a scalar type. A floating-point number has a point or an exponent. -/
def literal (t : TypeDesc) (constant : String) : String :=
  match t.base with
  | .bool => if constant = "0" then "False" else "True"
  | .float | .double =>
    if constant.toList.any (fun c => c == '.' || c == 'e' || c == 'E' || c == 'n' || c == 'i') then constant
    else constant ++ ".0"
  | _ => constant

/-- The literal of the default of a field. -/
def defaultLiteral (f : FieldDef) : String := literal f.type f.constant

/-- The constant that holds the place of a table field. -/
def slotConstant (env : Env) (f : FieldDef) : String := "VT_" ++ env.namer.constant f.name

/-- The name of a type that is no container. -/
def atomName (env : Env) (t : TypeDesc) : Except GenError String :=
  match t.base with
  | .string => .ok "str"
  | .struct => do return env.namer.typeName (← env.structOf t).name
  | .union => .ok "flatbuffers.table.Table"
  | b =>
    if t.isEnum then do return env.namer.typeName (← env.enumOf t).name
    else if b = .bool then .ok "bool"
    else if b.isFloat then .ok "float"
    else .ok "int"

/-- The name of a type. -/
def typeName (env : Env) (t : TypeDesc) : Except GenError String := do
  let atom ← atomName env t.innermost
  return t.layers.foldr (fun _ s => s!"List[{s}]") atom

/-- The module of a definition. -/
def modulePath (env : Env) (scope : Namespace) (name : String) : String :=
  ".".intercalate (scope.components.map env.namer.component ++ [env.namer.typeName name])

/-- The line that brings a symbol of a definition's module into reach. In a single file none is needed. -/
def importSymbol (env : Env) (scope : Namespace) (name symbol : String) : Code :=
  if env.options.oneFile then [] else line s!"from {modulePath env scope name} import {symbol}"

/-- The import of the class of a struct, table or enum, and the name of the class. -/
def importType (env : Env) (t : TypeDesc) : Except GenError (Code × String) :=
  match env.schema.structOf? t with
  | some d =>
    let symbol := env.namer.typeName d.name
    .ok (importSymbol env d.scope d.name symbol, symbol)
  | none => do
    let e ← env.enumOf t
    let symbol := env.namer.typeName e.name
    return (importSymbol env e.scope e.name symbol, symbol)

/-- The import of the object class of a struct or table, and the name of the class. -/
def importObject (env : Env) (t : TypeDesc) : Except GenError (Code × String) := do
  let d ← env.structOf t
  let symbol := env.namer.objectType d.name
  return (importSymbol env d.scope d.name symbol, symbol)

/-- The function that makes an object of the payload of a union. -/
def unionCreator (env : Env) (e : EnumDef) : String := env.namer.function s!"{e.name}_creator"

/-- The import of the function that makes an object of a payload, and its name. -/
def importCreator (env : Env) (e : EnumDef) : Code × String :=
  let creator := unionCreator env e
  (importSymbol env e.scope e.name creator, creator)

/-- The function that writes a fixed struct. -/
def structCreator (env : Env) (d : StructDef) : String := env.namer.function s!"Create{d.name}"

/-- The class that builds a table. -/
def builderClass (env : Env) (d : StructDef) : String := env.namer.typeName d.name ++ "Builder"

/-- Documentation at the start of a class. -/
def docstring (doc : List String) : Code :=
  let mark : Code := line "\"\"\""
  when (!doc.isEmpty) (mark ++ texts (doc.map trimmedEnd) ++ mark)

/-- Documentation in front of a member. -/
def docComments (doc : List String) : Code :=
  texts (doc.map fun d => s!"# {trimmedEnd d}")

/-- A statement with a body that is inset below it. -/
def suite (head : Phrase) (body : Code) : Code := line head ++ inset "    " body

/-- Two empty lines. -/
def gap : Code := blank ++ blank

/-- The number that a constant denotes in the 64 bits of an enum. -/
def enumNumber? (constant : String) : Option Int :=
  (readSigned? 128 constant).bind fun v =>
    if -Int.pow 2 63 ≤ v ∧ v < Int.pow 2 63 then some v
    else if 0 ≤ v ∧ v < Int.pow 2 64 then some (signed64 v.toNat)
    else none

/-- The default of an enum field: the member that has its value, if there is one. -/
def enumDefault (env : Env) (e : EnumDef) (cls : String) (f : FieldDef) : String :=
  match (enumNumber? f.constant).bind e.withValue? with
  | some m => s!"{cls}.{env.namer.variant m.name}"
  | none => f.constant

/-- Returns a number as a member of an enum, or a fallback if no member has it. -/
def returnEnum (cls read fallback : String) : Code :=
  line s!"value = {read}" ++ suite "try:" (line s!"return {cls}(value)") ++
    suite "except ValueError:" (line s!"return {fallback}")

/-- A method that gives the qualified name of a definition. -/
def nameString (env : Env) (d : StructDef) : Code :=
  when env.options.nameStrings <|
    blank ++ line "@classmethod" ++
      suite "def fully_qualified_name(cls):" (line s!"return \"{d.qualifiedName}\"")

end FlatSchema.Python
