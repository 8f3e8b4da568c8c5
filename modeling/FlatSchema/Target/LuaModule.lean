import FlatSchema.Output.Target
import FlatSchema.Plan.Loops

/-!
# Lua modules

One module for each definition, in the directories of its namespace. The module of a struct or table returns a table with its
constructor and builders; accessors are methods behind it. Other definitions are brought in by `require`.
-/

namespace FlatSchema.Lua

open Code

/-! ## Names -/

/-- The reserved words of Lua. -/
def keywords : List String :=
  ["and", "break", "do", "else", "elseif", "end", "false", "for", "function", "goto", "if", "in", "local", "nil", "not",
    "or", "repeat", "return", "then", "true", "until", "while"]

/-- Types and members are in upper camel case, local variables in lower camel case. -/
def namer (o : Options) : Namer where
  types := .upperCamel
  methods := .upperCamel
  functions := .upperCamel
  fields := .upperCamel
  params := .lowerCamel
  scopeSeparator := "__"
  objectPrefix := o.objectPrefix
  objectSuffix := o.objectSuffix
  keywordSuffix := "_"
  fileExtension := o.extensionOr ".lua"
  keywords := keywords

/-- The number type of the runtime library for a base type. -/
def numberType : BaseType → String
  | .none | .utype | .ubyte => "Uint8"
  | .bool => "Bool"
  | .byte => "Int8"
  | .short => "Int16"
  | .ushort => "Uint16"
  | .int => "Int32"
  | .uint => "Uint32"
  | .long => "Int64"
  | .ulong => "Uint64"
  | .float => "Float32"
  | .double => "Float64"
  | .string | .vector | .struct | .union | .array => "UOffsetT"

/-- The line that brings in the runtime library. -/
def runtimeImport : String := "local flatbuffers = require('flatbuffers')"

/-- The name of a type that is no container. -/
def atomName (env : Env) (t : TypeDesc) : Except GenError String :=
  match t.base with
  | .string => .ok "string"
  | .struct => do return env.namer.typeName (← env.structOf t).name
  | .union => .ok "flatbuffers.view"
  | b => if t.isEnum then do return env.namer.typeName (← env.enumOf t).name else .ok (numberType b)

/-- The name of a type, of a container that of its elements. -/
def typeName (env : Env) (t : TypeDesc) : Except GenError String := atomName env t.innermost

/-- The literal of the default of a field. Integers are signed and have 64 bits. -/
def defaultLiteral (f : FieldDef) : String :=
  match f.type.base with
  | .bool => if f.constant = "0" then "false" else "true"
  | .float | .double =>
    match f.constant with
    | "nan" | "-nan" => "0/0"
    | "inf" | "+inf" => "math.huge"
    | "-inf" => "-math.huge"
    | c => c
  | .ulong =>
    match readUnsigned? 64 f.constant with
    | some v => toString (signed64 v)
    | none => f.constant
  | _ => if f.type.isScalar then f.constant else "0"

/-- The name under which the module of a struct or table is known in the module of another one. A module knows itself by its own
name. -/
def localName (env : Env) (owner : Nat) (t : TypeDesc) : Except GenError Phrase := do
  let d ← env.structOf t
  if t.structRef = some owner then return env.namer.typeName d.name
  else
    let module := d.qualifiedName
    let name := "__" ++ module.map fun c => if c = '.' then '_' else c
    return { text := name, imports := [s!"local {name} = require('{module}')"] }

/-! ## Readers -/

/-- Documentation of a definition or member. -/
def docs (doc : List String) : Code := comment "-- " doc

/-- A function and the empty line after it. -/
def function (head : Phrase) (body : Code) : Code := block ("function " ++ head) body "end" ++ blank

/-- What is done when a table field is there. -/
def ifPresent (f : FieldDef) (found : Code) : Code :=
  line s!"local o = self.view:Offset({f.offset})" ++ block "if o ~= 0 then" found "end"

/-- The expression that reads a value at some place. -/
def getter (t : TypeDesc) (place : String) : String :=
  match t.base with
  | .string => s!"self.view:String({place})"
  | .bool => s!"(self.view:Get(flatbuffers.N.Bool, {place}) ~= 0)"
  | b => s!"self.view:Get(flatbuffers.N.{numberType b}, {place})"

/-- Returns a new object of a module at some place. -/
def returnObject (module : Phrase) (place : String) : Code :=
  line ("local obj = " ++ module ++ ".New()") ++ lines [s!"obj:Init(self.view.bytes, {place})", "return obj"]

/-- The tables of a module, its constructor, and the function that reads the root of a buffer. -/
def constructors (env : Env) (i : Nat) (d : StructDef) : Code :=
  let name := env.namer.typeName d.name
  docs d.doc ++ lines [s!"local {name} = \x7b\x7d", "local mt = \x7b\x7d"] ++ blank ++
    function s!"{name}.New()" (lines ["local o = \x7b\x7d", "setmetatable(o, \x7b__index = mt\x7d)", "return o"]) ++
    when (env.schema.isRoot i)
      (function s!"{name}.GetRootAs{name}(buf, offset)"
        (block "if type(buf) == \"string\" then" (line "buf = flatbuffers.binaryArray.New(buf)") "end" ++ blank ++
          lines ["local n = flatbuffers.N.UOffsetT:Unpack(buf, offset)", s!"local o = {name}.New()",
            "o:Init(buf, n + offset)", "return o"])) ++
    function "mt:Init(buf, pos)" (line "self.view = flatbuffers.view.New(buf, pos)")

/-- The accessors of a field of a fixed struct. -/
def structAccessor (env : Env) (owner : Nat) (f : FieldDef) : Except GenError Code := do
  let method := env.namer.method f.name
  let t := f.type
  let e := t.elementType
  if t.isStruct then
    return function s!"mt:{method}(obj)"
      (lines [s!"obj:Init(self.view.bytes, self.view.pos + {f.offset})", "return obj"])
  else if t.isArray then
    let place := s!"self.view.pos + {f.offset} + ((j-1) * {env.schema.inlineSize e})"
    let body ←
      if e.isStruct then do pure (returnObject (← localName env owner e) place)
      else pure (line s!"return {getter e place}")
    return function s!"mt:{method}(j)" body ++ function s!"mt:{method}Length()" (line s!"return {t.length}")
  else
    let place := s!"self.view.pos + {f.offset}"
    return function s!"mt:{method}()" (line s!"return {getter t place}")

/-- The body of the accessor of a vector's element. -/
def elementBody (env : Env) (owner : Nat) (f : FieldDef) : Except GenError Code := do
  let e := f.type.elementType
  let shift := s!"((j-1) * {env.schema.inlineSize e})"
  match e.base with
  | .struct =>
    let d ← env.structOf e
    let module ← localName env owner e
    return ifPresent f (lines ["local x = self.view:Vector(o)", s!"x = x + {shift}"] ++
      when (!d.fixed) (line "x = self.view:Indirect(x)") ++ returnObject module "x")
  | .union =>
    return ifPresent f (lines ["local obj = flatbuffers.view.New(flatbuffers.binaryArray.New(0), 0)",
      s!"self.view:Union(obj, self.view:Vector(o) + {shift} - self.view.pos)", "return obj"])
  | b =>
    let place := s!"a + {shift}"
    let fallback := match b with
      | .string => "''"
      | .bool => "false"
      | _ => "0"
    return ifPresent f (lines ["local a = self.view:Vector(o)", s!"return {getter e place}"]) ++
      line s!"return {fallback}"

/-- The accessors of a vector. -/
def vectorAccessors (env : Env) (owner : Nat) (f : FieldDef) : Except GenError Code := do
  let method := env.namer.method f.name
  let e := f.type.elementType
  let element ← elementBody env owner f
  return function s!"mt:{method}(j)" element ++
    when (e.isScalar && e.base.size == 1)
      (function s!"mt:{method}AsString(start, stop)"
        (line s!"return self.view:VectorAsString({f.offset}, start, stop)")) ++
    function s!"mt:{method}Length()" (ifPresent f (line "return self.view:VectorLen(o)") ++ line "return 0")

/-- The accessors of a field of a table. -/
def tableAccessor (env : Env) (owner : Nat) (f : FieldDef) : Except GenError Code := do
  let accessor : Phrase := s!"mt:{env.namer.method f.name}()"
  let t := f.type
  let read := line ("return " ++ getter t "self.view.pos + o" : String)
  if t.isScalar then
    return function accessor (ifPresent f read ++ line s!"return {defaultLiteral f}")
  else
    match t.base with
    | .string => return function accessor (ifPresent f read)
    | .struct =>
      let d ← env.structOf t
      let module ← localName env owner t
      let place := if d.fixed then "self.view.pos + o" else "self.view:Indirect(self.view.pos + o)"
      return function accessor (ifPresent f (line s!"local x = {place}" ++ returnObject module "x"))
    | .union =>
      return function accessor (ifPresent f (lines [
        "local obj = flatbuffers.view.New(flatbuffers.binaryArray.New(0), 0)", "self.view:Union(obj, o)", "return obj"]))
    | .vector => vectorAccessors env owner f
    | _ => return []

/-! ## Builders -/

/-- How the steps of a struct's builder are written. -/
def spelling (env : Env) : BuilderSpelling where
  prep align size := s!"builder:Prep({align}, {size})"
  pad n := s!"builder:Pad({n})"
  put t value := s!"builder:Prepend{numberType t.base}({value})"
  loop index n := s!"for {index} = {n}, 1, -1 do"
  loopEnd := line "end"
  param := env.namer.param

/-- The function that writes a fixed struct. -/
def structBuilder (env : Env) (d : StructDef) : Code :=
  let name := env.namer.typeName d.name
  let plan := StructPlan.of env.schema d
  let params := String.join (plan.params.map fun p => ", " ++ env.namer.param p.name)
  function s!"{name}.Create{name}(builder{params})"
    ((spelling env).code 0 plan.ops ++ line "return builder:Offset()")

/-- The word for a field in the methods that add it. -/
def slotWord (env : Env) (t : TypeDesc) : String :=
  if t.isScalar then numberType t.base
  else if t.isStruct && env.schema.isFixedStruct t then "Struct"
  else "UOffsetTRelative"

/-- The functions that add a field to a table, and start it if it is a vector. -/
def addFunctions (env : Env) (name : String) (f : FieldDef) : Code :=
  let method := env.namer.method f.name
  let param := env.namer.param f.name
  let e := f.type.elementType
  function s!"{name}.Add{method}(builder, {param})"
      (line s!"builder:Prepend{slotWord env f.type}Slot({f.slot}, {param}, {defaultLiteral f})") ++
    when f.type.isVector
      (function s!"{name}.Start{method}Vector(builder, numElems)"
        (line s!"return builder:StartVector({env.schema.inlineSize e}, numElems, {env.schema.inlineAlignment e})"))

/-- The functions that build a table. -/
def tableBuilders (env : Env) (d : StructDef) : Code :=
  let name := env.namer.typeName d.name
  function s!"{name}.Start(builder)" (line s!"builder:StartObject({d.fields.length})") ++
    d.liveFields.flatMap (addFunctions env name) ++
    function s!"{name}.End(builder)" (line "return builder:EndObject()")

/-! ## Modules -/

/-- The module of an enum or of the variants of a union. -/
def enumCode (env : Env) (e : EnumDef) : Code :=
  let name := env.namer.typeName e.name
  docs e.doc ++
    braced s!"local {name} ="
      (e.vals.flatMap fun v => docs v.doc ++ line s!"{env.namer.variant v.name} = {e.valueText v.value},") ++
    blank ++ line s!"return {name}"

/-- The module of a struct or table: its constructors, an accessor for each field, and what builds it. -/
def objectCode (env : Env) (i : Nat) (d : StructDef) (accessor : FieldDef → Except GenError Code) (builders : Code) :
    Except GenError Code := do
  let fields ← d.liveFields.mapM fun f => do return docs f.doc ++ (← accessor f)
  return require runtimeImport ++ constructors env i d ++ fields.flatten ++ builders ++
    line s!"return {env.namer.typeName d.name}"

/-- The start of a module: what it declares and what it brings in. -/
def header (env : Env) (state : FileState) : Code :=
  let root : Code := match env.schema.rootStruct? with
    | some d => line s!"  Rooting type : {d.qualifiedName} ({env.schema.fileName}.fbs)"
    | none => []
  line ("--[[ " ++ ", ".intercalate state.declared : String) ++ blank ++
    line "  Automatically generated by the FlatBuffers compiler, do not modify." ++ blank ++
    line s!"  Declared by  : {env.schema.fileName}.fbs" ++ root ++ blank ++ line "--]]" ++ blank ++
    when (!state.imports.isEmpty) (texts state.imports ++ blank)

/-- Lua with its options chosen. -/
def target (o : Options) : Target where
  language := .lua
  namer := namer o
  indentUnit := "  "
  layout := .perDefinition
  typeName := typeName
  header env state := .ok (header env state)
  enumCode env _ e := .ok (enumCode env e)
  structCode env _ i d := objectCode env i d (structAccessor env i) (structBuilder env d)
  tableCode env _ i d := objectCode env i d (tableAccessor env i) (tableBuilders env d)

end FlatSchema.Lua
