import FlatSchema.Target.PythonNames

/-!
# Enums and unions in Python

An enum becomes a class of integers. A union also maps its members to the classes of their tables, and in the object API a
function makes an object of a payload.
-/

namespace FlatSchema.Python

open Code

/-- The members of an enum. -/
def members (env : Env) (e : EnumDef) : Code :=
  e.vals.flatMap fun v =>
    docComments v.doc ++ line s!"{env.namer.variant v.name} = {e.valueText v.value}"

/-- The first of the members with the least value. -/
def firstLeast? : List EnumVal → Option EnumVal
  | [] => none
  | v :: rest =>
    match firstLeast? rest with
    | some w => some (if w.value < v.value then w else v)
    | none => some v

/-- The last of the members with the greatest value. -/
def lastGreatest? : List EnumVal → Option EnumVal
  | [] => none
  | v :: rest =>
    match lastGreatest? rest with
    | some w => some (if w.value < v.value then v else w)
    | none => some v

/-- The bounds of an enum: for bit flags no bit and all bits, else the members with the least and greatest value. Bounds that are
declared are not written again. -/
def bounds (env : Env) (e : EnumDef) : Code :=
  if e.isBitFlags then
    let all := e.vals.foldl (fun bits v => or64 bits v.value) 0
    when (e.val? "NONE").isNone (line "NONE = 0") ++
      when (e.val? "ANY").isNone (line s!"ANY = {e.valueText all}")
  else
    match firstLeast? e.vals, lastGreatest? e.vals with
    | some least, some greatest =>
      when ((e.val? "MIN").isNone && (e.val? "MAX").isNone) <|
        line s!"MIN = {env.namer.variant least.name}" ++ line s!"MAX = {env.namer.variant greatest.name}"
    | _, _ => line "pass"

/-- The entry of a variant in the map from variants to classes. -/
def tableEntry (env : Env) (v : EnumVal) : Except GenError (Code × Phrase) := do
  let (imports, cls) ← importType env v.payload
  return (imports, s!"cls.{env.namer.variant v.name}: {cls},")

/-- The map from the variants of a union to the classes of their tables. -/
def tableTypes (env : Env) (e : EnumDef) : Except GenError Code := do
  let entries ← (e.variants.filter fun v => env.schema.isTable v.payload).mapM (tableEntry env)
  let body :=
    if entries.isEmpty then line "return \x7b\x7d"
    else entries.flatMap (·.1) ++ block "return \x7b" (lines (entries.map (·.2))) "\x7d"
  return blank ++ line "@property" ++ suite "def table_type(self):" (line "return self.table_types().get(self)") ++
    blank ++ line "@classmethod" ++ nested "def table_types(cls):" body

/-- The class of an enum or union. -/
def enumClass (env : Env) (e : EnumDef) : Except GenError Code := do
  let types ← if e.isUnion then tableTypes env e else .ok []
  return [.set "ENUM_NAME" (env.namer.typeName e.name)] ++
    nested "class \x7b\x7bENUM_NAME\x7d\x7d(enum.IntEnum):"
      (docstring e.doc ++ members env e ++ bounds env e ++ types)

/-- The branch of a variant in the function that makes objects of payloads. -/
def payloadBranch (env : Env) (e : EnumDef) (v : EnumVal) : Except GenError Code := do
  let head := s!"if union_type == {env.namer.typeName e.name}.{env.namer.variant v.name}:"
  if v.payload.isString then
    return nested head (lines [
      "length = flatbuffers.encode.Get(flatbuffers.packer.uoffset, table.Bytes, table.Pos)",
      "start = table.Pos + flatbuffers.number_types.UOffsetTFlags.bytewidth",
      "return bytes(table.Bytes[start:start + length])"])
  else if env.schema.isTable v.payload then
    let (imports, object) ← importObject env v.payload
    return nested head (imports ++ line s!"return {object}.init_from_buf(table.Bytes, table.Pos)")
  else .error .danglingType

/-- The function that makes an object of the payload of a union. -/
def payloadFunction (env : Env) (e : EnumDef) : Except GenError Code := do
  let branches ← e.variants.mapM (payloadBranch env e)
  return nested s!"def {unionCreator env e}(union_type, table):" <|
    line "from flatbuffers.table import Table" ++
      suite "if not isinstance(table, Table):" (line "return None") ++ branches.flatten ++ line "return None"

/-- The code of an enum or union. -/
def enumCode (env : Env) (e : EnumDef) : Except GenError Code := do
  let cls ← enumClass env e
  let creator ← if e.isUnion && env.options.objectApi then payloadFunction env e else .ok []
  return cls ++ when (!creator.isEmpty) (gap ++ creator)

end FlatSchema.Python
