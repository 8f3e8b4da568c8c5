import FlatSchema.Target.PythonBuilders
import FlatSchema.Target.PythonEnums
import FlatSchema.Target.PythonObjects
import FlatSchema.Target.PythonViews

/-!
# Python modules

Classes that read and build buffers with the runtime library for Python: one module for the schema, or one for each definition
with packages for their namespaces.
-/

namespace FlatSchema.Python

open Code

/-- The start of a module. -/
def header (env : Env) (state : FileState) : Code :=
  line "# automatically generated by the FlatBuffers compiler, do not modify" ++ blank ++
    when (!state.scope.isRoot) (line s!"# namespace: {env.namer.scope state.scope}" ++ blank) ++
    lines ["import flatbuffers", "import enum"] ++ texts state.imports ++
    when (state.imports.contains numpyImport) (line "np = import_numpy()") ++ gap

/-- The code of a fixed struct: what reads it, what builds it, and its object class. -/
def structCode (env : Env) (d : StructDef) : Except GenError Code := do
  let view ← structClass env d
  let object ← if env.options.objectApi then do pure (gap ++ (← structObject env d)) else pure []
  return view ++ gap ++ structBuilder env d ++ object

/-- The code of a table: what reads it, what builds it, and its object class. -/
def tableCode (env : Env) (i : Nat) (d : StructDef) : Except GenError Code := do
  let view ← tableClass env i d
  let object ← if env.options.objectApi then do pure (gap ++ (← tableObject env d)) else pure []
  return view ++ gap ++ tableBuilder env i d ++ object

/-- The directories around some files, in the order of paths. -/
def packages (files : List OutputFile) : List String :=
  let directories := files.flatMap fun f => Path.ancestors f.path.utf8ByteSize f.path
  directories.foldl (fun known dir => Path.insertSorted dir known) []

/-- Every directory of modules is a package. -/
def companions (env : Env) (files : List OutputFile) : List OutputFile :=
  if env.options.oneFile then []
  else (packages files).map fun dir => { path := Path.join dir "__init__.py", contents := "" }

/-- Python with its options chosen. -/
def target (o : Options) : Target where
  language := .python
  namer := namer o
  layout := if o.oneFile then .oneFile else .perDefinition
  typeName := typeName
  header env state := .ok (header env state)
  enumCode env state e := do return state.apart gap (← enumCode env e)
  structCode env state _ d := do return state.apart gap (← structCode env d)
  tableCode env state i d := do return state.apart gap (← tableCode env i d)
  companions := companions

end FlatSchema.Python
