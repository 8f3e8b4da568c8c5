import FlatSchema.Code.Step
import FlatSchema.Naming.Namer
import FlatSchema.Output.FileState
import FlatSchema.Output.Language
import FlatSchema.Output.Options
import FlatSchema.Output.Transition
import FlatSchema.Schema.Graph

/-!
# Targets

What a target language decides about generated code: its names, its files, and the code of each definition.
-/

namespace FlatSchema

/-- What generators read: the schema, the options, and the naming rules of the language. -/
structure Env where
  schema : Schema
  options : Options
  namer : Namer

namespace Env

/-- The fixed struct or table that a type refers to. -/
def structOf (env : Env) (t : TypeDesc) : Except GenError StructDef :=
  match env.schema.structOf? t with
  | some d => .ok d
  | none => .error .danglingType

/-- The enum or union that a type refers to. -/
def enumOf (env : Env) (t : TypeDesc) : Except GenError EnumDef :=
  match env.schema.enumOf? t with
  | some e => .ok e
  | none => .error .danglingType

/-- The fixed struct or table at some place. -/
def structAt (env : Env) (i : Nat) : Except GenError StructDef :=
  match env.schema.structs[i]? with
  | some d => .ok d
  | none => .error .danglingType

end Env

/-- Code that keeps a gap to what its file has declared before. -/
def FileState.apart (state : FileState) (gap code : Code) : Code := Code.when (state.emitted > 0) gap ++ code

/-- How definitions are spread over files. -/
inductive OutputLayout
  | oneFile
  | perDefinition
  | perNamespace
deriving DecidableEq, Repr

/-- A definition and its place among the enums or among the structs. -/
inductive Definition
  | enum (i : Nat) (body : EnumDef)
  | struct (i : Nat) (body : StructDef)
deriving Repr

namespace Definition

/-- The declared name. -/
def name : Definition → String
  | .enum _ e => e.name
  | .struct _ d => d.name

/-- The namespace that a definition belongs to. -/
def scope : Definition → Namespace
  | .enum _ e => e.scope
  | .struct _ d => d.scope

/-- The name with its namespace. -/
def qualifiedName (d : Definition) : String := d.scope.qualify d.name "."

end Definition

/-- A file, relative to the output directory. -/
structure OutputFile where
  path : String
  contents : String
deriving DecidableEq, Repr

/-- A target language with its options chosen. -/
structure Target where
  language : Language
  namer : Namer
  /-- One step of indentation. -/
  indentUnit : String := "    "
  layout : OutputLayout
  /-- The name of a type in the language. -/
  typeName : Env → TypeDesc → Except GenError String
  /-- The start of a file, once its definitions are known. -/
  header : Env → FileState → Except GenError Code
  /-- The end of a file. -/
  footer : Env → FileState → Except GenError Code := fun _ _ => .ok []
  /-- A component of a namespace opens. -/
  openScope : Env → String → Code := fun _ _ => []
  /-- A component of a namespace closes. -/
  closeScope : Env → String → Code := fun _ _ => []
  /-- The code of an enum or union. -/
  enumCode : Env → FileState → EnumDef → Except GenError Code
  /-- The code of a fixed struct. -/
  structCode : Env → FileState → Nat → StructDef → Except GenError Code
  /-- The code of a table. -/
  tableCode : Env → FileState → Nat → StructDef → Except GenError Code
  /-- The widths that the columns in the code of a definition are aligned to. -/
  columns : Env → Definition → Except GenError (List Nat) := fun _ _ => .ok []
  /-- Further files that go with those of the definitions. -/
  companions : Env → List OutputFile → List OutputFile := fun _ _ => []
  /-- The path of a single file. -/
  singlePath : Env → String := fun env =>
    env.schema.fileName ++ env.options.fileSuffix ++ env.namer.fileExtension
  /-- The path of the file of a definition. -/
  definitionPath : Env → Definition → String := fun env d =>
    Path.join (env.namer.directory d.scope) (env.namer.file d.name)
  /-- The path of the file of a namespace. -/
  scopePath : Env → Namespace → String := fun env s =>
    (if s.isRoot then env.schema.fileName else s.dotted) ++ env.namer.fileExtension

namespace Target

/-- What the generators of a target read. -/
def env (t : Target) (schema : Schema) (options : Options) : Env :=
  { schema, options, namer := t.namer }

/-- The code of a definition, by its kind. -/
def define (t : Target) (env : Env) (state : FileState) : Definition → Except GenError Code
  | .enum _ e => t.enumCode env state e
  | .struct i d => if d.fixed then t.structCode env state i d else t.tableCode env state i d

/-- The code of a move between namespaces. -/
def move (t : Target) (env : Env) (m : Transition) : Code :=
  m.closing.flatMap (t.closeScope env) ++ m.opening.flatMap (t.openScope env)

end Target

end FlatSchema
