import FlatSchema.Target.GoBuilders
import FlatSchema.Target.GoObjects
import FlatSchema.Target.GoReaders

/-!
# Go packages

Types and functions that read and build buffers with the runtime library for Go. Each namespace is a package in a directory of its
own, unless the options choose one package for all.
-/

namespace FlatSchema.Go

open Code

/-- The import statements of a file: the standard library, the runtime library, and other packages. -/
def importLines (imports : List String) : Code :=
  let standard := imports.filter (·.startsWith "\"")
  let packages := imports.filter fun i => !i.startsWith "\"" && i ≠ runtimeImport
  let runtime := imports.contains runtimeImport
  if !runtime && packages.isEmpty then standard.flatMap fun i => line s!"import {i}" ++ blank
  else
    block "import (" (texts standard ++ when runtime (line runtimeImport) ++
      when (!packages.isEmpty) (blank ++ texts packages)) ")" ++ blank

/-- The start of a file. -/
def header (env : Env) (state : FileState) : Code :=
  line "// Code generated by the FlatBuffers compiler. DO NOT EDIT." ++ blank ++
    line s!"package {packageName env state.scope}" ++ blank ++ importLines state.imports

/-- The code of a fixed struct: its objects, what reads it, and what builds it. -/
def structCode (site : Site) (d : StructDef) : Except GenError Code := do
  let object ← if site.options.objectApi then structObject site d else .ok []
  let reader ← structReader site d
  let builder ← structBuilder site d
  return require runtimeImport ++ docs d.doc ++ object ++ reader ++ builder

/-- The code of a table: its objects, what reads it, and what builds it. -/
def tableCode (site : Site) (i : Nat) (d : StructDef) : Except GenError Code := do
  let object ← if site.options.objectApi then tableObject site d else .ok []
  let reader ← tableReader site i d
  let builder ← tableBuilders site d
  return require runtimeImport ++ docs d.doc ++ object ++ reader ++ builder

/-- The widths of the columns of a definition: the constants of an enum and the entries of its maps, or the members of an object. -/
def columns (env : Env) : Definition → Except GenError (List Nat)
  | .enum _ e => .ok [constantWidth env e, constantWidth env e + 1, keyWidth e + 1]
  | .struct _ d => do
    if env.options.objectApi then
      let rows ← objectRows { toEnv := env, here := d.scope } d
      return [nameWidth rows, typeWidth rows]
    else return []

/-- The path of the file of a definition, in the directory of its package. -/
def definitionPath (env : Env) (d : Definition) : String :=
  let scope := packageOf env.options d.scope
  Path.join (if scope.isRoot then env.schema.fileName else env.namer.directory scope) (env.namer.file d.name)

/-- Go with its options chosen. -/
def target (o : Options) : Target where
  language := .go
  namer := namer o
  indentUnit := "\t"
  layout := if o.oneFile then .oneFile else .perDefinition
  typeName := typeName
  header env state := .ok (header env state)
  enumCode env state e := do return state.apart blank (← enumCode { toEnv := env, here := state.current } e)
  structCode env state _ d := do return state.apart blank (← structCode { toEnv := env, here := state.current } d)
  tableCode env state i d := do return state.apart blank (← tableCode { toEnv := env, here := state.current } i d)
  columns := columns
  definitionPath := definitionPath

end FlatSchema.Go
