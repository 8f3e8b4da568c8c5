import FlatSchema.Target.CSharpBuilders
import FlatSchema.Target.CSharpStructs
import FlatSchema.Target.CSharpTables

/-!
# C# namespaces

Value types that read and build buffers with the runtime library for C#: one file for each namespace, or one for the schema, with
its definitions in nested namespace blocks.
-/

namespace FlatSchema.CSharp

open Code

/-- The start of a file. -/
def header (state : FileState) : Code :=
  lines ["// <auto-generated>", "//  automatically generated by the FlatBuffers compiler, do not modify",
      "// </auto-generated>"] ++ blank ++
    when (!state.imports.isEmpty) (texts (state.imports.map fun u => s!"using {u};") ++ blank)

/-- The code of a table. -/
def tableCode (env : Env) (i : Nat) (d : StructDef) : Except GenError Code := do
  let fields ← d.liveFields.mapM fun f => do return docs f.doc ++ (← tableMembers env d f)
  let create ← if env.schema.singleCall d then createMethod env d else .ok []
  let builders ← builderMethods env d
  let search ← match d.keyField? with
    | some key => do pure (blank ++ sortedVector env d key ++ blank ++ (← lookupByKey env d key))
    | none => pure []
  return objectType env d <|
    rootMethods env i d ++ placement env d ++ blank ++ fields.flatten ++ blank ++ create ++ builders ++
      when (env.schema.isRoot i) (finishMethods env d) ++ search

/-- C# with its options chosen. -/
def target (o : Options) : Target where
  language := .csharp
  namer := namer o
  indentUnit := "  "
  layout := if o.oneFile then .oneFile else .perNamespace
  typeName := readType
  header _ state := .ok (header state)
  openScope env component := lines [s!"namespace {env.namer.component component}", "\x7b"] ++ [.indent]
  closeScope _ _ := .dedent :: line "\x7d"
  enumCode env state e := .ok (state.apart blank (enumCode env e))
  structCode env state _ d := do return state.apart blank (usings.flatMap require ++ (← structCode env d))
  tableCode env state i d := do return state.apart blank (usings.flatMap require ++ (← tableCode env i d))

end FlatSchema.CSharp
