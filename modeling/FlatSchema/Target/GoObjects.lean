import FlatSchema.Plan.Struct
import FlatSchema.Plan.Table
import FlatSchema.Target.GoEnums

/-!
# Objects in Go

The object API: plain types that are filled from a reader and packed into a buffer. The variant of a union goes with its payload,
so fields that hold variants are not members of an object.
-/

namespace FlatSchema.Go

open Code

/-- The fields that are members of an object. -/
def objectFields (d : StructDef) : List FieldDef :=
  if d.fixed then d.fields
  else d.liveFields.filter fun f =>
    f.type.base ≠ .utype && !(f.type.isVector && f.type.elementType.base = .utype)

/-- The members of an object: their names, their types and the keys of their values. -/
def objectRows (site : Site) (d : StructDef) : Except GenError (List (String × Phrase × String)) :=
  (objectFields d).mapM fun f => do return (site.namer.field f.name, ← site.objectType f.type, f.name)

/-- The width of the names of some members. -/
def nameWidth (rows : List (String × Phrase × String)) : Nat := widest (rows.map (·.1))

/-- The width of the types of some members. -/
def typeWidth (rows : List (String × Phrase × String)) : Nat := widest (rows.map (·.2.1.text))

/-- The type of objects of a struct or table, with its columns aligned. -/
def objectDecl (site : Site) (d : StructDef) : Except GenError Code := do
  let rows ← objectRows site d
  return braced s!"type {site.namer.objectType d.name} struct"
      (rows.flatMap fun (name, t, key) =>
        line (Phrase.padded name (nameWidth rows) ++ " " ++ t.padded (typeWidth rows) ++ s!" \x60json:\"{key}\"\x60")) ++
    blank

/-- The method that makes an object. -/
def unpackMethod (site : Site) (d : StructDef) : Code :=
  let object := site.namer.objectType d.name
  clause s!"func (rcv *{site.namer.typeName d.name}) UnPack() *{object}"
      (clause "if rcv == nil" (line "return nil") ++
        lines [s!"t := &{object}\x7b\x7d", "rcv.UnPackTo(t)", "return t"]) ++
    blank

/-- The method that packs an object. -/
def packMethod (site : Site) (d : StructDef) (body : Code) : Code :=
  braced s!"func (t *{site.namer.objectType d.name}) Pack(builder *flatbuffers.Builder) flatbuffers.UOffsetT"
    (clause "if t == nil" (line "return 0") ++ body) ++ blank

/-- The method that fills an object. -/
def unpackToMethod (site : Site) (d : StructDef) (body : Code) : Code :=
  braced s!"func (rcv *{site.namer.typeName d.name}) UnPackTo(t *{site.namer.objectType d.name})" body ++ blank

/-! ## Fixed structs -/

/-- Fills one member from the reader of a struct. -/
def unpackStructField (site : Site) (f : FieldDef) : Except GenError Code := do
  let member := site.namer.field f.name
  let getter := site.accessor f
  let t := f.type
  if t.isStruct then return line s!"t.{member} = rcv.{getter}(nil).UnPack()"
  else if t.isArray then
    let list ← site.objectType t
    let item := if t.elementType.isStruct then s!"rcv.{getter}(nil, j).UnPack()" else s!"rcv.{getter}(j)"
    return line (s!"t.{member} = make(" ++ list ++ s!", {t.length})") ++
      clause s!"for j := range t.{member}" (line s!"t.{member}[j] = {item}")
  else return line s!"t.{member} = rcv.{getter}()"

/-- The argument of a struct's builder, and the code before it: the members of an array of structs are gathered first. -/
def structArgument (site : Site) (p : StructParam) : Except GenError (Code × String) := do
  let path (fs : List FieldDef) : String := ".".intercalate (fs.map fun f => site.namer.field f.name)
  match p.span.filter (·.ofStructs) with
  | some span =>
    let name := site.namer.param p.name
    let list := path (p.path.take (span.fieldIndex + 1))
    let item := path (p.path.drop (span.fieldIndex + 1))
    return (line (s!"{name} := make([]" ++ (← site.readType p.type) ++ s!", len(t.{list}))") ++
      clause s!"for j := range t.{list}" (line s!"{name}[j] = t.{list}[j].{item}"), name)
  | none => return ([], s!"t.{path p.path}")

/-- The objects of a fixed struct. -/
def structObject (site : Site) (d : StructDef) : Except GenError Code := do
  let decl ← objectDecl site d
  let arguments ← (StructPlan.of site.schema d).params.mapM (structArgument site)
  let values := ", ".intercalate (arguments.map (·.2))
  let fields ← d.fields.mapM (unpackStructField site)
  return decl ++
    packMethod site d (arguments.flatMap (·.1) ++ line s!"return {site.structCreator d}(builder, {values})") ++
    unpackToMethod site d fields.flatten ++ unpackMethod site d

/-! ## Tables -/

/-- The variable that holds the offset of a field's value. -/
def offsetName (site : Site) (f : FieldDef) : String := s!"{site.namer.param f.name}Offset"

/-- The member that holds the variant of a field. -/
def variantMember (site : Site) (f : FieldDef) : String := site.namer.field (f.unionName?.getD f.name)

/-- The line that starts the offset of a field as that of nothing. -/
def noOffset (site : Site) (f : FieldDef) : Code := line s!"{offsetName site f} := flatbuffers.UOffsetT(0)"

/-- Packs a vector whose elements lie in it, from the last to the first. -/
def packInline (site : Site) (table list put : String) (f : FieldDef) : Code :=
  let size := s!"{site.namer.param f.name}Length"
  noOffset site f ++ braced s!"if {list} != nil"
    (line s!"{size} := len({list})" ++ line s!"{table}Start{site.accessor f}Vector(builder, {size})" ++
      braced s!"for j := {size} - 1; j >= 0; j--" (line put) ++
      line s!"{offsetName site f} = builder.EndVector({size})")

/-- Packs a vector of offsets: first what they lead to, then the offsets from the last to the first. -/
def packOffsets (site : Site) (table list item : String) (f : FieldDef) : Code :=
  let param := site.namer.param f.name
  noOffset site f ++ braced s!"if {list} != nil"
    (line s!"{param}Length := len({list})" ++
      line s!"{param}Offsets := make([]flatbuffers.UOffsetT, {param}Length)" ++
      clause s!"for j := 0; j < {param}Length; j++" (line s!"{param}Offsets[j] = {item}") ++
      line s!"{table}Start{site.accessor f}Vector(builder, {param}Length)" ++
      clause s!"for j := {param}Length - 1; j >= 0; j--" (line s!"builder.PrependUOffsetT({param}Offsets[j])") ++
      line s!"{offsetName site f} = builder.EndVector({param}Length)")

/-- Builds what a field refers to. -/
def packChild (site : Site) (table : String) (f : FieldDef) (kind : ChildKind) : Code :=
  let member := "t." ++ site.namer.field f.name
  let offset := offsetName site f
  let e := f.type.elementType
  let put (value : String) : String := s!"builder.Prepend{site.method e}({site.castToNumber e value})"
  match kind with
  | .string =>
    if f.required then line s!"{offset} := builder.CreateString({member})"
    else noOffset site f ++ clause s!"if {member} != \"\"" (line s!"{offset} = builder.CreateString({member})")
  | .table | .union => line s!"{offset} := {member}.Pack(builder)"
  | .unionTypeVector =>
    let list := "t." ++ variantMember site f
    packInline site table list (put s!"{list}[j].Type") f
  | .scalarVector =>
    if site.isByte e then
      noOffset site f ++ clause s!"if {member} != nil" (line s!"{offset} = builder.CreateByteString({member})")
    else packInline site table member (put s!"{member}[j]") f
  | .structVector => packInline site table member s!"{member}[j].Pack(builder)" f
  | .stringVector => packOffsets site table member s!"builder.CreateString({member}[j])" f
  | .tableVector | .unionVector => packOffsets site table member s!"{member}[j].Pack(builder)" f

/-- Adds a field to the table. -/
def packSlot (site : Site) (table : String) (f : FieldDef) (kind : SlotKind) : Code :=
  let add (value : String) : Code := line s!"{table}Add{site.accessor f}(builder, {value})"
  let member := "t." ++ site.namer.field f.name
  match kind with
  | .scalar => add member
  | .unionType =>
    let union := "t." ++ variantMember site f
    clause s!"if {union} != nil" (add s!"{union}.Type")
  | .inlineStruct => line s!"{offsetName site f} := {member}.Pack(builder)" ++ add (offsetName site f)
  | .offset => add (offsetName site f)

/-- Fills one member with the elements of a vector. -/
def unpackVector (site : Site) (f : FieldDef) : Except GenError Code := do
  let member := site.namer.field f.name
  let getter := site.accessor f
  let param := site.namer.param f.name
  let e := f.type.elementType
  let list ← site.objectType f.type
  let item ←
    if e.isStruct then do
      let view := site.structName (← site.structOf e)
      pure (line ("x := " ++ view ++ "\x7b\x7d") ++ lines [s!"rcv.{getter}(&x, j)", s!"t.{member}[j] = x.UnPack()"])
    else if e.isUnion then
      let variant := site.namer.function s!"{f.name}_type"
      pure (line s!"{param}Table := flatbuffers.Table\x7b\x7d" ++
        clause s!"if rcv.{getter}(&{param}Table, j)" (line s!"t.{member}[j] = rcv.{variant}(j).UnPack({param}Table)"))
    else if e.isString then pure (line s!"t.{member}[j] = string(rcv.{getter}(j))")
    else pure (line s!"t.{member}[j] = rcv.{getter}(j)")
  return line s!"{param}Length := rcv.{getter}Length()" ++ line (s!"t.{member} = make(" ++ list ++ s!", {param}Length)") ++
    braced s!"for j := 0; j < {param}Length; j++" item

/-- Fills one member from the reader of a table. -/
def unpackTableField (site : Site) (f : FieldDef) : Except GenError Code := do
  let member := site.namer.field f.name
  let getter := site.accessor f
  let param := site.namer.param f.name
  let t := f.type
  if t.isScalar then return line s!"t.{member} = rcv.{getter}()"
  else
    match t.base with
    | .string => return line s!"t.{member} = string(rcv.{getter}())"
    | .struct => return line s!"t.{member} = rcv.{getter}(nil).UnPack()"
    | .union =>
      let variant := site.namer.function s!"{f.name}_type"
      return line s!"{param}Table := flatbuffers.Table\x7b\x7d" ++
        clause s!"if rcv.{getter}(&{param}Table)" (line s!"t.{member} = rcv.{variant}().UnPack({param}Table)")
    | .vector =>
      if site.isByte t.elementType then return line s!"t.{member} = rcv.{getter}Bytes()" else unpackVector site f
    | _ => return []

/-- The objects of a table. -/
def tableObject (site : Site) (d : StructDef) : Except GenError Code := do
  let decl ← objectDecl site d
  let table := site.namer.typeName d.name
  let plan := PackPlan.of site.schema d
  let fields ← (objectFields d).mapM (unpackTableField site)
  return decl ++
    packMethod site d
      (plan.children.flatMap (fun (f, kind) => packChild site table f kind) ++ line s!"{table}Start(builder)" ++
        plan.slots.flatMap (fun (f, kind) => packSlot site table f kind) ++ line s!"return {table}End(builder)") ++
    unpackToMethod site d fields.flatten ++ unpackMethod site d

end FlatSchema.Go
