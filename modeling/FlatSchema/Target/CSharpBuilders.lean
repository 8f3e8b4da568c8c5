import FlatSchema.Plan.Table
import FlatSchema.Target.CSharpNames

/-!
# Building tables in C#

The methods that build a table, finish a buffer, sort a vector of tables by their keys, and look for a key.
-/

namespace FlatSchema.CSharp

open Code

/-- The type of the value that is added for a field. -/
def slotType (env : Env) (t : TypeDesc) : Except GenError String :=
  if t.isScalar then readType env t
  else
    match t.base with
    | .string => .ok "StringOffset"
    | .vector => .ok "VectorOffset"
    | .union => .ok "int"
    | _ => do
      let goal := structName env (← env.structOf t)
      return s!"Offset<{goal}>"

/-- The parameter that holds the value that is added for a field. -/
def slotParam (env : Env) (f : FieldDef) : String :=
  let param := env.namer.param f.name
  if f.type.isScalar then param else param ++ "Offset"

/-- The default that a scalar is compared with when it is added. -/
def slotDefault (f : FieldDef) : String :=
  match f.type.base with
  | .bool => boolLiteral f.constant
  | .float => f.constant ++ "f"
  | _ => f.constant

/-- What a field holds if no argument is given for it. -/
def argumentDefault (env : Env) (f : FieldDef) (t : String) : String :=
  if f.type.isScalar then defaultValue env f else if f.type.isUnion then "0" else s!"default({t})"

/-- The parameters of a method, one on a line, the last with the end of the method's head. -/
def paramLines : List String → List String
  | [] => []
  | [p] => [s!"{p}) \x7b"]
  | p :: rest => s!"{p}," :: paramLines rest

/-- The method that builds a table by one call. -/
def createMethod (env : Env) (d : StructDef) : Except GenError Code := do
  let name := env.namer.typeName d.name
  let params ← d.liveFields.mapM fun f => do
    let t ← slotType env f.type
    return s!"{t} {slotParam env f} = {argumentDefault env f t}"
  let head := s!"public static Offset<{structName env d}> Create{name}(FlatBufferBuilder builder"
  return (if params.isEmpty then line (head ++ ") \x7b" : String)
      else line (head ++ "," : String) ++ inset "    " (texts (paramLines params))) ++
    indented (line s!"builder.StartTable({d.fields.length});" ++
      texts (d.createOrder.map fun f => s!"{name}.Add{member env d f}(builder, {slotParam env f});") ++
      line s!"return {name}.End{name}(builder);") ++
    line "\x7d" ++ blank

/-- The type of the array from which a vector is made, and the call that adds an element. -/
def vectorSource? (env : Env) (e : TypeDesc) : Except GenError (Option (String × String)) := do
  if e.isScalar then
    let value := castToNumber env e "data[i]"
    return some ((← readType env e) ++ "[]", s!"builder.Add{methodSuffix e.base}({value})")
  else
    match e.base with
    | .string => return some ("StringOffset[]", "builder.AddOffset(data[i].Value)")
    | .union => return some ("int[]", "builder.AddOffset(data[i])")
    | .struct =>
      if env.schema.isFixedStruct e then return none
      else
        let goal := structName env (← env.structOf e)
        return some (s!"Offset<{goal}>[]", "builder.AddOffset(data[i].Value)")
    | _ => return none

/-- The methods that build a vector. -/
def vectorBuilders (env : Env) (name : String) (e : TypeDesc) : Except GenError Code := do
  let size := env.schema.inlineSize e
  let align := env.schema.inlineAlignment e
  let start := s!"builder.StartVector({size}, data.Length, {align});"
  let whole : List String := match ← vectorSource? env e with
    | some (array, add) =>
      let plain := s!"public static VectorOffset Create{name}Vector(FlatBufferBuilder builder, {array} data) " ++
        inBraces s!"{start} for (int i = data.Length - 1; i >= 0; i--) {add}; return builder.EndVector();"
      let atOnce := s!"public static VectorOffset Create{name}VectorBlock(FlatBufferBuilder builder, {array} data) " ++
        inBraces s!"{start} builder.Add(data); return builder.EndVector();"
      if e.isScalar && (env.schema.scalarEnum? e).isNone then [plain, atOnce] else [plain]
    | none => []
  return texts (whole ++ [s!"public static void Start{name}Vector(FlatBufferBuilder builder, int numElems) " ++
    inBraces s!"builder.StartVector({size}, numElems, {align});"])

/-- The call that adds a field. -/
def addCall (env : Env) (f : FieldDef) : String :=
  let t := f.type
  let param := slotParam env f
  if t.isScalar then
    s!"builder.Add{methodSuffix t.base}({f.slot}, {castToNumber env t param}, {slotDefault f});"
  else if t.isUnion then s!"builder.AddOffset({f.slot}, {param}, 0);"
  else if t.isStruct && env.schema.isFixedStruct t then s!"builder.AddStruct({f.slot}, {param}.Value, 0);"
  else s!"builder.AddOffset({f.slot}, {param}.Value, 0);"

/-- The methods that add a field to a table, and build it if it is a vector. -/
def addMethods (env : Env) (d : StructDef) (f : FieldDef) : Except GenError Code := do
  let name := member env d f
  let t ← slotType env f.type
  let vector ← if f.type.isVector then vectorBuilders env name f.type.elementType else .ok []
  return line (s!"public static void Add{name}(FlatBufferBuilder builder, {t} {slotParam env f}) " ++
    inBraces (addCall env f) : String) ++ vector

/-- The methods that start a table, add its fields, and end it. -/
def builderMethods (env : Env) (d : StructDef) : Except GenError Code := do
  let name := env.namer.typeName d.name
  let qualified := structName env d
  let adds ← d.liveFields.mapM (addMethods env d)
  let required := (d.liveFields.filter (·.required)).map fun f =>
    s!"builder.Required(o, {f.offset});  // {f.name}"
  return line (s!"public static void Start{name}(FlatBufferBuilder builder) " ++
      inBraces s!"builder.StartTable({d.fields.length});" : String) ++
    adds.flatten ++
    braced s!"public static Offset<{qualified}> End{name}(FlatBufferBuilder builder)"
      (line "int o = builder.EndTable();" ++ texts required ++ line s!"return new Offset<{qualified}>(o);")

/-- The methods that read a buffer from its root. -/
def rootMethods (env : Env) (i : Nat) (d : StructDef) : Code :=
  let name := env.namer.typeName d.name
  let identified := match env.schema.isRoot i, env.schema.fileIdentifier with
    | true, some id => [s!"public static bool {name}BufferHasIdentifier(ByteBuffer _bb) " ++
        inBraces s!"return Table.__has_identifier(_bb, \"{id}\");"]
    | _, _ => []
  when (env.schema.isRoot i || env.schema.isNestedRoot i) <|
    texts ([
      s!"public static {name} GetRootAs{name}(ByteBuffer _bb) " ++
        inBraces s!"return GetRootAs{name}(_bb, new {name}());",
      s!"public static {name} GetRootAs{name}(ByteBuffer _bb, {name} obj) " ++
        inBraces "return (obj.__assign(_bb.GetInt(_bb.Position) + _bb.Position, _bb));"] ++ identified)

/-- The methods that finish a buffer of the root. -/
def finishMethods (env : Env) (d : StructDef) : Code :=
  let name := env.namer.typeName d.name
  let identifier := match env.schema.fileIdentifier with
    | some id => s!", \"{id}\""
    | none => ""
  texts (["", "SizePrefixed"].map fun form =>
    s!"public static void Finish{form}{name}Buffer(FlatBufferBuilder builder, Offset<{structName env d}> offset) " ++
      inBraces s!"builder.Finish{form}(offset.Value{identifier});")

/-- The method that sorts tables by their keys and makes a vector of them. -/
def sortedVector (env : Env) (d : StructDef) (key : FieldDef) : Code :=
  let qualified := structName env d
  let read (o : String) : String :=
    s!"new {qualified}().__assign(builder.DataBuffer.Length - {o}.Value, builder.DataBuffer).{member env d key}"
  let order :=
    if key.type.isString then
      s!"Table.CompareStrings(Table.__offset({key.offset}, o1.Value, builder.DataBuffer), " ++
        s!"Table.__offset({key.offset}, o2.Value, builder.DataBuffer), builder.DataBuffer)"
    else read "o1" ++ ".CompareTo(" ++ read "o2" ++ ")"
  braced (s!"public static VectorOffset CreateSortedVectorOf{env.namer.typeName d.name}" ++
      s!"(FlatBufferBuilder builder, Offset<{qualified}>[] offsets)" : String)
    (line "Array.Sort(offsets," ++ inset "  " (line s!"(Offset<{qualified}> o1, Offset<{qualified}> o2) => {order});") ++
      line "return builder.CreateVectorOfTables(offsets);")

/-- The method that looks for a key in a sorted vector of tables, by halves. -/
def lookupByKey (env : Env) (d : StructDef) (key : FieldDef) : Except GenError Code := do
  let qualified := structName env d
  let keyType ← readType env key.type
  let order :=
    if key.type.isString then
      s!"Table.CompareStrings(Table.__offset({key.offset}, bb.Length - tableOffset, bb), byteKey, bb)"
    else s!"obj_.{member env d key}.CompareTo(key)"
  return braced (s!"public static {qualified}? __lookup_by_key(int vectorLocation, {keyType} key, " ++
      "ByteBuffer bb)" : String) <|
    line s!"{qualified} obj_ = new {qualified}();" ++
      when key.type.isString (line "byte[] byteKey = System.Text.Encoding.UTF8.GetBytes(key);") ++
      lines ["int span = bb.GetInt(vectorLocation - 4);", "int start = 0;"] ++
      braced "while (span != 0)"
        (lines ["int middle = span / 2;",
            "int tableOffset = Table.__indirect(vectorLocation + 4 * (start + middle), bb);",
            "obj_.__assign(tableOffset, bb);", s!"int comp = {order};"] ++
          nested "if (comp > 0) \x7b" (line "span = middle;") ++
          nested "\x7d else if (comp < 0) \x7b" (lines ["middle++;", "start += middle;", "span -= middle;"]) ++
          nested "\x7d else \x7b" (line "return obj_;") ++ line "\x7d") ++
      line "return null;"

end FlatSchema.CSharp
