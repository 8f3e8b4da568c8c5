import FlatSchema.Target.GoNames

/-!
# Enums and unions in Go

An enum becomes a number type with constants, and maps between its members and their names. In the object API a union becomes a
type that holds its variant and a payload.
-/

namespace FlatSchema.Go

open Code

/-- The greatest number of bytes among some texts. -/
def widest (texts : List String) : Nat := (texts.map (·.utf8ByteSize)).foldl max 0

/-- The width of the names of an enum's constants. -/
def constantWidth (env : Env) (e : EnumDef) : Nat := widest (e.vals.map fun v => env.namer.enumVariant e.name v.name)

/-- The width of the names of an enum's members in quotes. -/
def keyWidth (e : EnumDef) : Nat := widest (e.vals.map (·.name)) + 2

/-- The type, the constants and the maps of an enum. -/
def enumType (site : Site) (e : EnumDef) : Code :=
  let name := site.namer.typeName e.name
  let members := e.vals.map fun v => (v, site.namer.enumVariant e.name v.name)
  let width := constantWidth site.toEnv e
  require strconvImport ++
    line s!"type {name} {numberType e.underlying.base}" ++ blank ++
    block "const ("
      (members.flatMap fun (v, member) =>
        docs v.doc ++ line (Phrase.padded member width ++ s!" {name} = {e.valueText v.value}"))
      ")" ++
    blank ++
    block s!"var EnumNames{name} = map[{name}]string\x7b"
      (members.flatMap fun (v, member) => line (Phrase.padded s!"{member}:" (width + 1) ++ s!" \"{v.name}\",")) "\x7d" ++
    blank ++
    block s!"var EnumValues{name} = map[string]{name}\x7b"
      (members.flatMap fun (v, member) => line (Phrase.padded s!"\"{v.name}\":" (keyWidth e + 1) ++ s!" {member},")) "\x7d" ++
    blank ++
    braced s!"func (v {name}) String() string"
      (clause s!"if s, ok := EnumNames{name}[v]; ok" (line "return s") ++
        line s!"return \"{name}(\" + strconv.FormatInt(int64(v), 10) + \")\"")

/-- The cases of a switch over the variants of a union. -/
def variantCases (site : Site) (e : EnumDef) (body : EnumVal → String → Except GenError Code) :
    Except GenError Code := do
  let cases ← e.variants.mapM fun v => do
    let variant := site.namer.enumVariant e.name v.name
    return nested s!"case {variant}:" (← body v variant)
  return cases.flatten

/-- Packs the payload of a variant. -/
def packVariant (site : Site) (v : EnumVal) : Except GenError Code := do
  if v.payload.isString then return line "return builder.CreateString(t.Value.(string))"
  else return line ("return t.Value.(*" ++ site.objectName (← site.structOf v.payload) ++ ").Pack(builder)")

/-- Makes an object of the payload of a variant. -/
def unpackVariant (site : Site) (e : EnumDef) (v : EnumVal) (variant : String) : Except GenError Code := do
  let object := site.namer.objectType e.name
  if v.payload.isString then
    return lines ["n := flatbuffers.GetUOffsetT(table.Bytes[table.Pos:])",
      "start := table.Pos + flatbuffers.SizeUOffsetT",
      s!"return &{object}\x7bType: {variant}, Value: string(table.Bytes[start : start+n])\x7d"]
  else
    let view := site.structName (← site.structOf v.payload)
    return line ("var x " ++ view) ++ lines ["x.Init(table.Bytes, table.Pos)",
      s!"return &{object}\x7bType: {variant}, Value: x.UnPack()\x7d"]

/-- The type of objects of a union. -/
def unionObject (site : Site) (e : EnumDef) : Except GenError Code := do
  let name := site.namer.typeName e.name
  let object := site.namer.objectType e.name
  let packed ← variantCases site e fun v _ => packVariant site v
  let unpacked ← variantCases site e (unpackVariant site e)
  return require runtimeImport ++ blank ++
    clause s!"type {object} struct" (lines [s!"Type  {name}", "Value interface\x7b\x7d"]) ++ blank ++
    braced s!"func (t *{object}) Pack(builder *flatbuffers.Builder) flatbuffers.UOffsetT"
      (clause "if t == nil" (line "return 0") ++
        line "switch t.Type \x7b" ++ packed ++ line "\x7d" ++ line "return 0") ++
    blank ++
    braced s!"func (rcv {name}) UnPack(table flatbuffers.Table) *{object}"
      (line "switch rcv \x7b" ++ unpacked ++ line "\x7d" ++ line "return nil")

/-- The code of an enum or union. -/
def enumCode (site : Site) (e : EnumDef) : Except GenError Code := do
  let object ← if e.isUnion && site.options.objectApi then unionObject site e else .ok []
  return docs e.doc ++ enumType site e ++ object

end FlatSchema.Go
