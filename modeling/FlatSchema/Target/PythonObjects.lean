import FlatSchema.Plan.Struct
import FlatSchema.Plan.Table
import FlatSchema.Target.PythonNames

/-!
# Objects in Python

The object API: plain classes that are filled from a view and packed into a buffer.
-/

namespace FlatSchema.Python

open Code

/-- What an attribute of a new object holds. -/
def objectDefault (f : FieldDef) : String :=
  if f.type.isScalar then defaultLiteral f else "None"

/-- The constructors that structs and tables share. -/
def objectConstructors (env : Env) (d : StructDef) : Code :=
  let attributes := d.liveFields.map fun f => s!"self.{env.namer.field f.name} = {objectDefault f}"
  nested "def __init__(self):" (texts (if attributes.isEmpty then ["pass"] else attributes)) ++ blank ++
    line "@classmethod" ++
    suite "def init_from_buf(cls, buf, pos):" (line s!"return cls.init_from_obj({env.namer.typeName d.name}(buf, pos))") ++
    when (!d.fixed) (blank ++ line "@classmethod" ++ suite "def init_from_packed_buf(cls, buf, pos=0):"
      (lines ["n = flatbuffers.encode.Get(flatbuffers.packer.uoffset, buf, pos)",
        "return cls.init_from_buf(buf, pos + n)"])) ++
    blank ++ line "@classmethod" ++
    suite "def init_from_obj(cls, view):" (lines ["x = cls()", "x._unpack(view)", "return x"])

/-- The method that fills an object from a view. -/
def unpackMethod (fields : List Code) : Code :=
  nested "def _unpack(self, view):" (suite "if view is None:" (line "return") ++ fields.flatten)

/-- The class of objects of a struct or table. -/
def objectClass (env : Env) (d : StructDef) (unpack pack : Code) : Code :=
  nested s!"class {env.namer.objectType d.name}(object):"
    (objectConstructors env d ++ blank ++ unpack ++ blank ++ pack)

/-! ## Fixed structs -/

/-- Fills one attribute from the view of a struct. -/
def unpackStructField (env : Env) (f : FieldDef) : Except GenError Code := do
  let name := env.namer.field f.name
  let t := f.type
  if t.isStruct then
    let (imports, object) ← importObject env t
    return imports ++ line s!"self.{name} = {object}.init_from_obj(view.{name}())"
  else if t.isArray && t.elementType.isStruct then
    let (imports, object) ← importObject env t.elementType
    return imports ++ line s!"self.{name} = [{object}.init_from_obj(view.{name}(i)) for i in range({t.length})]"
  else if t.isArray then return line s!"self.{name} = view.{name}_as_list()"
  else return line s!"self.{name} = view.{name}()"

/-- The expression that reads an argument of a struct's builder from an object. -/
def structArgument (env : Env) (p : StructParam) : String :=
  let path (fs : List FieldDef) : String := ".".intercalate (fs.map fun f => env.namer.field f.name)
  match p.span with
  | some span =>
    if span.ofStructs then
      s!"[_e.{path (p.path.drop (span.fieldIndex + 1))} for _e in self.{path (p.path.take (span.fieldIndex + 1))}]"
    else s!"self.{path p.path}"
  | none => s!"self.{path p.path}"

/-- The class of objects of a fixed struct. -/
def structObject (env : Env) (d : StructDef) : Except GenError Code := do
  let fields ← d.fields.mapM (unpackStructField env)
  let arguments := ", ".intercalate ((StructPlan.of env.schema d).params.map (structArgument env))
  return objectClass env d (unpackMethod fields)
    (suite "def pack(self, builder):" (line s!"return {structCreator env d}(builder, {arguments})"))

/-! ## Tables -/

/-- Fills one attribute with the elements of a vector. -/
def unpackVector (env : Env) (f : FieldDef) : Except GenError Code := do
  let name := env.namer.field f.name
  let e := f.type.elementType
  let all (item : String) : Code := line s!"self.{name} = [{item} for i in range(view.{name}_length())]"
  let body ←
    if e.isUnion then do
      let (imports, creator) := importCreator env (← env.enumOf e)
      pure (imports ++ all s!"{creator}(self.{name}_type[i], view.{name}(i))")
    else if e.isStruct then do
      let (imports, object) ← importObject env e
      pure (imports ++ all s!"{object}.init_from_obj(view.{name}(i))")
    else pure (all s!"view.{name}(i)")
  return nested s!"if not view.{name}_is_none():" body

/-- Fills one attribute from the view of a table. -/
def unpackTableField (env : Env) (f : FieldDef) : Except GenError Code := do
  let name := env.namer.field f.name
  let t := f.type
  if t.isScalar || t.isString then return line s!"self.{name} = view.{name}()"
  else if t.isUnion then
    let (imports, creator) := importCreator env (← env.enumOf t)
    return imports ++ line s!"self.{name} = {creator}(self.{name}_type, view.{name}())"
  else if t.isStruct then
    let (imports, object) ← importObject env t
    return imports ++ suite s!"if view.{name}() is not None:"
      (line s!"self.{name} = {object}.init_from_obj(view.{name}())")
  else unpackVector env f

/-- Packs the payload of a union. -/
def packPayload (goal value : String) (hasString : Bool) : Code :=
  let pack := line s!"{goal} = {value}.pack(builder)"
  if hasString then
    suite s!"if isinstance({value}, (bytes, str)):" (line s!"{goal} = builder.CreateString({value})") ++
      suite "else:" pack
  else pack

/-- Packs a vector of offsets from a list of them. -/
def packOffsets (name : String) : Code :=
  line s!"builder.StartVector(4, len({name}_items), 4)" ++
    suite s!"for item in reversed({name}_items):" (line "builder.PrependUOffsetTRelative(item)") ++
    line s!"{name} = builder.EndVector()"

/-- Packs a vector whose elements lie in it. -/
def packInline (name list : String) (size align : Nat) (put : String) : Code :=
  line s!"builder.StartVector({size}, len({list}), {align})" ++
    suite s!"for item in reversed({list}):" (line put) ++ line s!"{name} = builder.EndVector()"

/-- Builds what a field refers to. -/
def packChild (env : Env) (f : FieldDef) (kind : ChildKind) : Except GenError Code := do
  let whole := "self." ++ env.namer.field f.name
  let name := "_" ++ env.namer.field f.name
  let e := f.type.elementType
  match kind with
  | .string => return line s!"{name} = builder.CreateString({whole})"
  | .table => return line s!"{name} = {whole}.pack(builder)"
  | .union => return packPayload name whole (← env.enumOf f.type).hasStringVariant
  | .scalarVector | .unionTypeVector =>
    return suite s!"if np is not None and type({whole}) is np.ndarray:"
        (line s!"{name} = builder.CreateNumpyVector({whole})") ++
      nested "else:"
        (packInline name whole e.base.size e.base.size s!"builder.Prepend{numberSuffix e}(item)")
  | .stringVector =>
    return line s!"{name}_items = [builder.CreateString(item) for item in {whole}]" ++ packOffsets name
  | .tableVector => return line s!"{name}_items = [item.pack(builder) for item in {whole}]" ++ packOffsets name
  | .unionVector =>
    let union ← env.enumOf e
    return line s!"{name}_items = []" ++
      nested s!"for item in {whole}:"
        (packPayload "packed" "item" union.hasStringVariant ++ line s!"{name}_items.append(packed)") ++
      packOffsets name
  | .structVector =>
    let d ← env.structOf e
    return packInline name whole d.byteSize d.minAlign "item.pack(builder)"

/-- Adds a field to the table. -/
def packSlot (env : Env) (f : FieldDef) (kind : SlotKind) : Code :=
  let name := env.namer.field f.name
  let present (value : String) : Code := suite s!"if self.{name} is not None:" (line s!"table.add_{name}({value})")
  match kind with
  | .scalar | .unionType => line s!"table.add_{name}(self.{name})"
  | .inlineStruct => present s!"self.{name}.pack(builder)"
  | .offset => present s!"_{name}"

/-- The class of objects of a table. -/
def tableObject (env : Env) (d : StructDef) : Except GenError Code := do
  let fields ← d.liveFields.mapM (unpackTableField env)
  let plan := PackPlan.of env.schema d
  let children ← plan.children.mapM fun (f, kind) => do
    return nested s!"if self.{env.namer.field f.name} is not None:" (← packChild env f kind)
  return objectClass env d (unpackMethod fields) <|
    nested "def pack(self, builder):" <|
      children.flatten ++ line s!"table = {builderClass env d}(builder).start()" ++
        plan.slots.flatMap (fun (f, kind) => packSlot env f kind) ++ line "return table.finish()"

end FlatSchema.Python
