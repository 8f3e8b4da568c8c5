import FlatSchema.Output.Target
import FlatSchema.Validity

/-!
# Rendering files

The definitions of a schema are spread over files as the target asks; each file is the header, the code of its definitions with
the moves between their namespaces, and the footer.
-/

namespace FlatSchema

namespace Schema

/-- The definitions to write: enums and unions, then structs and tables, without those written elsewhere. -/
def definitions (s : Schema) : List Definition :=
  (s.enums.zipIdx.filter (fun (e, _) => !e.generated)).map (fun (e, i) => .enum i e) ++
    (s.structs.zipIdx.filter (fun (d, _) => !d.generated)).map (fun (d, i) => .struct i d)

end Schema

/-- A file and the definitions that go into it. -/
structure FileGroup where
  path : String
  scope : Namespace
  definitions : List Definition

namespace FileGroup

/-- Adds a definition to the group of its namespace, or starts that group. -/
def add (path : Namespace → String) (d : Definition) : List FileGroup → List FileGroup
  | [] => [{ path := path d.scope, scope := d.scope, definitions := [d] }]
  | g :: rest =>
    if g.scope = d.scope then { g with definitions := g.definitions ++ [d] } :: rest else g :: add path d rest

end FileGroup

namespace Target

/-- The files of a schema with their definitions. -/
def groups (t : Target) (env : Env) : List FileGroup :=
  let ds := env.schema.definitions
  match t.layout with
  | .oneFile => [{ path := t.singlePath env, scope := {}, definitions := ds }]
  | .perDefinition => ds.map fun d => { path := t.definitionPath env d, scope := d.scope, definitions := [d] }
  | .perNamespace => ds.foldl (fun gs d => FileGroup.add (t.scopePath env) d gs) []

/-- The body of a file while it is written: the state, the namespace that is open, and the code. -/
structure Body where
  state : FileState
  scope : Namespace := {}
  code : Code := []

/-- Adds a definition to a body. -/
def addDefinition (t : Target) (env : Env) (b : Body) (d : Definition) : Except GenError Body := do
  let moved := t.move env { source := b.scope, target := d.scope }
  let state := { b.state with current := d.scope }
  let code ← t.define env state d
  return {
    state := (state.addImports code.imports).declare d.qualifiedName
    scope := d.scope
    code := b.code ++ moved ++ code }

/-- The body of a file: its definitions one after the other, and the way back to the root. -/
def body (t : Target) (env : Env) (g : FileGroup) : Except GenError Body := do
  let b ← g.definitions.foldlM (t.addDefinition env) { state := FileState.start g.scope }
  return { b with code := b.code ++ t.move env { source := b.scope, target := {} } }

/-- Renders a file. -/
def renderFile (t : Target) (env : Env) (g : FileGroup) : Except GenError OutputFile := do
  let b ← t.body env g
  let header ← t.header env b.state
  let footer ← t.footer env b.state
  let text := Writer.render t.indentUnit b.code
  return { path := g.path, contents := Writer.render t.indentUnit (header ++ [.raw text] ++ footer) }

/-- Renders all files of a schema that keeps all rules. -/
def render (t : Target) (schema : Schema) (options : Options) : Except GenError (List OutputFile) := do
  match schema.validate with
  | .error e => .error (.schema e)
  | .ok () =>
    let env := t.env schema options
    let files ← (t.groups env).mapM (t.renderFile env)
    return files ++ t.companions env files

/-- The greatest width that a column can be aligned to. -/
def maxColumn : Nat := 65535

/-- Renders all files of a schema, if none of their columns is too wide. -/
def print (t : Target) (schema : Schema) (options : Options) : Except GenError (List OutputFile) := do
  let files ← t.render schema options
  let widths ← schema.definitions.mapM (t.columns (t.env schema options))
  if widths.flatten.all (· ≤ maxColumn) then return files else .error .wideColumn

end Target

end FlatSchema
