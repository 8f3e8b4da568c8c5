import FlatSchema.Number.Double
import FlatSchema.Output.Target

/-!
# Schemas in the schema language

A resolved schema as text of the schema language: its definitions, then the declarations about the root. The field that holds the
variant of a union is implied by the union's field and is left out.
-/

namespace FlatSchema.Fbs

open Code

/-- Names stay as they are. -/
def namer (o : Options) : Namer where
  variantSeparator := "."
  scopeSeparator := "."
  fileExtension := o.extensionOr ".fbs"

/-- A name as it is written in a namespace. -/
def nameFrom (here scope : Namespace) (name : String) : String :=
  if scope = here then name else scope.qualify name "."

/-- A type that is no container, as it is written in a namespace. -/
def atomText (env : Env) (here : Namespace) (t : TypeDesc) : Except GenError String :=
  match t.base with
  | .string => .ok "string"
  | .struct => do
    let d ← env.structOf t
    return nameFrom here d.scope d.name
  | b =>
    if b = .union || t.isEnum then do
      let e ← env.enumOf t
      return nameFrom here e.scope e.name
    else .ok b.name

/-- A type as it is written in a namespace. -/
def typeText (env : Env) (here : Namespace) (t : TypeDesc) : Except GenError String := do
  let atom ← atomText env here t.innermost
  return t.layers.foldr (fun (b, n) s => if b = .array then s!"[{s}:{n}]" else s!"[{s}]") atom

/-- The namespace of a qualified name. -/
def scopeOf (qualified : String) : Namespace :=
  match (qualified.toList.reverse.dropWhile (· != '.')) with
  | [] => {}
  | _ :: scope => Namespace.ofDotted (String.ofList scope.reverse)

/-- The statement that changes the namespace, if the definition before is in another one. -/
def namespaceLine (state : FileState) : Code :=
  let previous := match state.declared.getLast? with
    | some name => scopeOf name
    | none => {}
  if previous = state.current then []
  else line (if state.current.isRoot then "namespace;" else s!"namespace {state.current.dotted};" : String) ++ blank

/-- Documentation of a definition or member. -/
def docs (doc : List String) : Code := comment "/// " doc

/-- A list of attributes, or nothing. -/
def attributeList (entries : List String) : String :=
  if entries.isEmpty then "" else " (" ++ ", ".intercalate entries ++ ")"

/-- An attribute. A value that reads as a number is written without quotes. -/
def attributeText (key value : String) : String :=
  if value.isEmpty then key
  else if (Numeral.read? value.toList).isSome then s!"{key}: {value}"
  else s!"{key}: \"{value}\""

/-- The attributes that are written for what a field is and not as they were given. -/
def flagAttributes : List String := ["deprecated", "required", "key", "nested_flatbuffer"]

/-- The attributes of a field. -/
def fieldAttributes (env : Env) (here : Namespace) (f : FieldDef) : Except GenError (List String) := do
  let nested ← match f.nested with
    | some i => do
      let d ← env.structAt i
      pure [s!"nested_flatbuffer: \"{nameFrom here d.scope d.name}\""]
    | none => pure []
  let flag (b : Bool) (name : String) : List String := if b then [name] else []
  let others := f.attributes.filter fun a => !flagAttributes.contains a.1
  return flag f.deprecated "deprecated" ++ flag f.required "required" ++ flag f.key "key" ++ nested ++
    others.map fun a => attributeText a.1 a.2

/-- Whether a constant reads as zero. -/
def readsAsZero (constant : String) : Bool :=
  match (Numeral.read? constant.toList).bind Numeral.toDouble? with
  | some d => d.significand == 0
  | none => false

/-- The number that a constant denotes in the 64 bits of an enum. -/
def enumNumber? (constant : String) : Option Int :=
  readSigned? 64 constant <|> (readUnsigned? 64 constant).map signed64

/-- The default of a field, unless it is zero. -/
def default? (env : Env) (f : FieldDef) : Except GenError (Option String) := do
  let t := f.type
  if !t.isScalar || readsAsZero f.constant then return none
  else if t.base = .bool then return some "true"
  else if t.isEnum then
    let e ← env.enumOf t
    match (enumNumber? f.constant).bind e.withValue? with
    | some v => return some v.name
    | none => return some f.constant
  else return some f.constant

/-- The declaration of a field. -/
def fieldCode (env : Env) (here : Namespace) (f : FieldDef) : Except GenError Code := do
  let t ← typeText env here f.type
  let initial := match ← default? env f with
    | some v => s!" = {v}"
    | none => ""
  let attributes ← fieldAttributes env here f
  return docs f.doc ++ line s!"{f.name}:{t}{initial}{attributeList attributes};"

/-- The declaration of a struct or table behind its word. -/
def objectCode (word : String) (env : Env) (d : StructDef) : Except GenError Code := do
  let fields ← (d.fields.filter fun f => !f.isDiscriminant).mapM (fieldCode env d.scope)
  let attributes := d.attributes.map fun a => attributeText a.1 a.2
  return docs d.doc ++ braced s!"{word} {d.name}{attributeList attributes}" fields.flatten

/-- A variant of a union. A table of the same name in the same namespace is not named twice. -/
def variantCode (env : Env) (e : EnumDef) (v : EnumVal) : Except GenError Code := do
  let member ←
    if v.payload.isStruct then do
      let d ← env.structOf v.payload
      pure (if d.name = v.name ∧ d.scope = e.scope then v.name else s!"{v.name}: {nameFrom e.scope d.scope d.name}")
    else pure s!"{v.name}: string"
  return docs v.doc ++ line s!"{member},"

/-- The place of the lowest bit that is set, 64 if none is. -/
def lowestBit (v : Int) : Nat :=
  ((List.range 64).find? fun i => (unsigned64 v).testBit i).getD 64

/-- The declaration of an enum or union. Bit flags are declared by the places of their bits. -/
def enumCode (env : Env) (e : EnumDef) : Except GenError Code := do
  if e.isUnion then
    let variants ← e.variants.mapM (variantCode env e)
    return docs e.doc ++ braced s!"union {e.name}" variants.flatten
  else
    let value (v : EnumVal) : String := if e.isBitFlags then toString (lowestBit v.value) else e.valueText v.value
    let attributes := e.attributes.map fun a => attributeText a.1 a.2
    return docs e.doc ++ braced s!"enum {e.name} : {e.underlying.base.name}{attributeList attributes}"
      (e.vals.flatMap fun v => docs v.doc ++ line s!"{v.name} = {value v},")

/-- A declaration in its namespace. -/
def declared (state : FileState) (code : Code) : Code := namespaceLine state ++ code ++ blank

/-- The declarations about the root. -/
def footer (env : Env) : Code :=
  texts ((env.schema.rootStruct?.map fun d => s!"root_type {d.qualifiedName};").toList ++
    (env.schema.fileIdentifier.map fun id => s!"file_identifier \"{id}\";").toList ++
    (env.schema.fileExtension.map fun ext => s!"file_extension \"{ext}\";").toList)

/-- The schema language with its options chosen. -/
def target (o : Options) : Target where
  language := .fbs
  namer := namer o
  indentUnit := "  "
  layout := .oneFile
  typeName env t := typeText env {} t
  header env _ := .ok (line s!"// Generated from {env.schema.fileName}" ++ blank)
  footer env _ := .ok (footer env)
  enumCode env state e := do return declared state (← enumCode env e)
  structCode env state _ d := do return declared state (← objectCode "struct" env d)
  tableCode env state _ d := do return declared state (← objectCode "table" env d)

end FlatSchema.Fbs
