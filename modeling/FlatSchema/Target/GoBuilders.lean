import FlatSchema.Plan.Loops
import FlatSchema.Plan.Table
import FlatSchema.Target.GoNames

/-!
# Builders in Go

Functions that write fixed structs and build tables.
-/

namespace FlatSchema.Go

open Code

/-- How the steps of a struct's builder are written. -/
def spelling (site : Site) : BuilderSpelling where
  prep align size := s!"builder.Prep({align}, {size})"
  pad n := s!"builder.Pad({n})"
  put t value := s!"builder.Prepend{site.method t}({site.castToNumber t value})"
  loop index n := s!"for {index} := {n - 1}; {index} >= 0; {index}-- \x7b"
  loopEnd := line "\x7d"
  param := site.namer.param

/-- A parameter of the function that writes a struct. -/
def structParam (site : Site) (p : StructParam) : Except GenError Phrase := do
  let t ← site.readType p.type
  return s!"{site.namer.param p.name} " ++ (if p.span.isSome then "[]" ++ t else t)

/-- The function that writes a fixed struct. -/
def structBuilder (site : Site) (d : StructDef) : Except GenError Code := do
  let plan := StructPlan.of site.schema d
  let params ← plan.params.mapM (structParam site)
  return blank ++ braced (s!"func {site.structCreator d}(builder *flatbuffers.Builder, " ++
      Phrase.intercalate ", " params ++ ") flatbuffers.UOffsetT")
    ((spelling site).code 0 plan.ops ++ line "return builder.Offset()")

/-- The type of the value that is added for a field. -/
def slotType (site : Site) (f : FieldDef) : Except GenError Phrase :=
  if f.type.isScalar then site.readType f.type else .ok "flatbuffers.UOffsetT"

/-- The functions that add a field to a table, and start it if it is a vector. -/
def addFunctions (site : Site) (name : String) (f : FieldDef) : Except GenError Code := do
  let function := site.accessor f
  let param := site.namer.param f.name
  let t := f.type
  let e := t.elementType
  let call :=
    if t.isScalar then
      s!"builder.Prepend{site.method t}Slot({f.slot}, {site.castToNumber t param}, {defaultLiteral f})"
    else
      let kind := if t.isStruct && site.schema.isFixedStruct t then "Struct" else "UOffsetT"
      s!"builder.Prepend{kind}Slot({f.slot}, flatbuffers.UOffsetT({param}), 0)"
  return blank ++ clause (s!"func {name}Add{function}(builder *flatbuffers.Builder, {param} " ++ (← slotType site f) ++ ")")
      (line call) ++
    when t.isVector (blank ++
      clause s!"func {name}Start{function}Vector(builder *flatbuffers.Builder, numElems int) flatbuffers.UOffsetT"
        (line s!"return builder.StartVector({site.schema.inlineSize e}, numElems, {site.schema.inlineAlignment e})"))

/-- The checks that required fields were added. -/
def requiredChecks (d : StructDef) : Code :=
  let required := d.liveFields.filter (·.required)
  when (!required.isEmpty) <|
    line ("t := flatbuffers.Table\x7bBytes: builder.Bytes, " ++
        "Pos: flatbuffers.UOffsetT(len(builder.Bytes)) - o\x7d" : String) ++
      required.flatMap fun f =>
        clause s!"if t.Offset({f.offset}) == 0"
          (line s!"panic(\"flatbuffers: missing required field '{f.name}' in {d.name}\")")

/-- The function that builds a table by one call. -/
def createFunction (site : Site) (d : StructDef) : Except GenError Code := do
  let name := site.namer.typeName d.name
  let params ← d.liveFields.mapM fun f => do
    return s!", {site.namer.param f.name} " ++ (← slotType site f)
  return blank ++ braced (s!"func Create{name}(builder *flatbuffers.Builder" ++ Phrase.intercalate "" params ++
      ") flatbuffers.UOffsetT")
    (line s!"{name}Start(builder)" ++
      texts (d.createOrder.map fun f => s!"{name}Add{site.accessor f}(builder, {site.namer.param f.name})") ++
      line s!"return {name}End(builder)")

/-- What builds a table. -/
def tableBuilders (site : Site) (d : StructDef) : Except GenError Code := do
  let name := site.namer.typeName d.name
  let adds ← d.liveFields.mapM (addFunctions site name)
  let create ← if site.schema.singleCall d then createFunction site d else .ok []
  return blank ++ clause s!"func {name}Start(builder *flatbuffers.Builder)"
      (line s!"builder.StartObject({d.fields.length})") ++
    adds.flatten ++ blank ++
    braced s!"func {name}End(builder *flatbuffers.Builder) flatbuffers.UOffsetT"
      (line "o := builder.EndObject()" ++ requiredChecks d ++ line "return o") ++
    create

end FlatSchema.Go
