import FlatSchema.Target.PythonNames

/-!
# Views in Python

Classes that read fixed structs and tables in a buffer, one method for each field, and methods that change scalars in place.
-/

namespace FlatSchema.Python

open Code

/-! ## Fixed structs -/

/-- The accessor of a scalar of a struct. -/
def structScalar (env : Env) (f : FieldDef) : Except GenError Code := do
  let read := s!"flatbuffers.encode.Get({flags f.type}.packer_type, self._buf, self._offset + {f.offset})"
  let body ←
    if f.type.isEnum then do
      let (imports, cls) ← importType env f.type
      let fallback := enumDefault env (← env.enumOf f.type) cls f
      pure (imports ++ returnEnum cls read fallback)
    else pure (line s!"return {read}")
  return nested s!"def {env.namer.field f.name}(self):" body

/-- The accessors of an array of a struct. -/
def structArray (env : Env) (f : FieldDef) : Except GenError Code := do
  let name := env.namer.field f.name
  let e := f.type.elementType
  let n := f.type.length
  let last ←
    if e.isStruct then do
      let (imports, cls) ← importType env e
      pure (imports ++ line s!"return {cls}(self._buf, position)")
    else pure (line s!"return flatbuffers.encode.Get({flags e}.packer_type, self._buf, position)")
  return nested s!"def {name}(self, index):"
      (suite s!"if not 0 <= index < {n}:" (line s!"raise IndexError(\"{name} index out of range\")") ++
        line s!"position = self._offset + {f.offset} + index * {env.schema.inlineSize e}" ++ last) ++
    blank ++ suite s!"def {name}_length(self):" (line s!"return {n}") ++
    blank ++ suite s!"def {name}_as_list(self):" (line s!"return [self.{name}(i) for i in range({n})]")

/-- The accessors of a field of a struct. -/
def structAccessor (env : Env) (f : FieldDef) : Except GenError Code := do
  let code ←
    if f.type.isStruct then do
      let (imports, cls) ← importType env f.type
      pure (nested s!"def {env.namer.field f.name}(self):"
        (imports ++ line s!"return {cls}(self._buf, self._offset + {f.offset})"))
    else if f.type.isArray then structArray env f
    else structScalar env f
  return docComments f.doc ++ code

/-- The method that changes a field of a struct, if there is one. -/
def structMutator (env : Env) (f : FieldDef) : Code :=
  let name := env.namer.field f.name
  let e := f.type.elementType
  if f.type.isArray then
    when (!e.isStruct) <|
      suite s!"def mutate_{name}(self, index, value):" <|
        suite s!"if not 0 <= index < {f.type.length}:" (line "return False") ++
          line (s!"flatbuffers.encode.Write({flags e}.packer_type, self._buf, " ++
            s!"self._offset + {f.offset} + index * {e.base.size}, value)") ++
          line "return True"
  else
    suite s!"def mutate_{name}(self, value):" <|
      line s!"flatbuffers.encode.Write({flags f.type}.packer_type, self._buf, self._offset + {f.offset}, value)" ++
        line "return True"

/-- The class that reads a fixed struct. -/
def structClass (env : Env) (d : StructDef) : Except GenError Code := do
  let fields ← d.fields.mapM fun f => do
    return blank ++ (← structAccessor env f) ++
      when (env.options.mutableBuffer && !f.type.isStruct) (blank ++ structMutator env f)
  return nested s!"class {env.namer.typeName d.name}(object):" <|
    docstring d.doc ++ line "__slots__ = ['_buf', '_offset']" ++ blank ++
      lines [s!"BYTE_SIZE = {d.byteSize}", s!"MIN_ALIGN = {d.minAlign}"] ++ blank ++
      suite "def __init__(self, buf, offset):" (lines ["self._buf = buf", "self._offset = offset"]) ++
      nameString env d ++ fields.flatten

/-! ## Tables -/

/-- The line that finds a table field. -/
def offsetLine (env : Env) (f : FieldDef) : Code :=
  line s!"o = {uoffset}(self._tab.Offset(self.{slotConstant env f}))"

/-- What a method returns when a field is there, and what it returns when it is not. -/
def fieldRead (env : Env) (f : FieldDef) (cls : String) : Except GenError (Code × String) := do
  let t := f.type
  let read := s!"self._tab.Get({flags t}, o + self._tab.Pos)"
  if t.isScalar then
    if t.isEnum then
      let fallback := enumDefault env (← env.enumOf t) cls f
      return (returnEnum cls read fallback, fallback)
    else if t.base = .bool then return (line s!"return bool({read})", defaultLiteral f)
    else return (line s!"return {read}", defaultLiteral f)
  else if t.isString then return (line "return self._tab.String(o + self._tab.Pos)", "None")
  else if t.isUnion then
    return (lines ["table = flatbuffers.table.Table(bytearray(), 0)", "self._tab.Union(table, o)", "return table"], "None")
  else if env.schema.isFixedStruct t then
    return (line s!"return {cls}(self._tab.Bytes, o + self._tab.Pos)", "None")
  else
    return (lines ["x = self._tab.Indirect(o + self._tab.Pos)", s!"return {cls}(self._tab.Bytes, x)"], "None")

/-- The accessor of a field that is no vector. The class is imported before the field is looked for, since the default may mention
it. -/
def plainAccessor (env : Env) (f : FieldDef) : Except GenError Code := do
  let (imports, cls) ← if f.type.isEnum || f.type.isStruct then importType env f.type else .ok ([], "")
  let (found, fallback) ← fieldRead env f cls
  return nested s!"def {env.namer.field f.name}(self):" <|
    imports ++ offsetLine env f ++ nested "if o != 0:" found ++ line s!"return {fallback}"

/-- What a method returns for an element of a vector, and what it returns when the vector is not there. -/
def elementRead (env : Env) (f : FieldDef) : Except GenError (Code × String) := do
  let e := f.type.elementType
  let stride := env.schema.inlineSize e
  if e.isScalar then
    let read := s!"self._tab.Get({flags e}, a + {uoffset}(j * {stride}))"
    let last ←
      if e.isEnum then do
        let (imports, cls) ← importType env e
        pure (imports ++ returnEnum cls read (enumDefault env (← env.enumOf e) cls f))
      else pure (line s!"return {read}")
    return (line "a = self._tab.Vector(o)" ++ last, "0")
  else if e.isString then
    return (lines ["a = self._tab.Vector(o)", s!"return self._tab.String(a + {uoffset}(j * 4))"], "\"\"")
  else if e.isUnion then
    return (lines ["a = self._tab.Vector(o)", "table = flatbuffers.table.Table(bytearray(), 0)",
      s!"self._tab.Union(table, a + {uoffset}(j * 4) - self._tab.Pos)", "return table"], "None")
  else
    let (imports, cls) ← importType env e
    let position :=
      if env.schema.isFixedStruct e then line s!"x += {uoffset}(j) * {stride}"
      else lines [s!"x += {uoffset}(j) * 4", "x = self._tab.Indirect(x)"]
    return (line "x = self._tab.Vector(o)" ++ position ++ imports ++ line s!"return {cls}(self._tab.Bytes, x)", "None")

/-- The accessor of the buffer that a vector of bytes holds. -/
def nestedRoot (env : Env) (f : FieldDef) (i : Nat) : Except GenError Code := do
  let (imports, cls) ← importType env (.record i)
  return blank ++ nested s!"def {env.namer.field f.name}_nested_root(self):"
    (offsetLine env f ++
      nested "if o != 0:" (imports ++ line s!"return {cls}.from_root(self._tab.Bytes, self._tab.Vector(o))") ++
      line "return None")

/-- The accessors of a vector. -/
def vectorAccessors (env : Env) (f : FieldDef) : Except GenError Code := do
  let name := env.namer.field f.name
  let e := f.type.elementType
  let found := offsetLine env f
  let (read, fallback) ← elementRead env f
  let inner ← match f.nested with
    | some i => nestedRoot env f i
    | none => .ok []
  return nested s!"def {name}(self, j):" (found ++ nested "if o != 0:" read ++ line s!"return {fallback}") ++
    when e.isScalar (require numpyImport ++ blank ++ nested s!"def {name}_as_numpy(self):"
      (found ++ suite "if o != 0:" (line s!"return self._tab.GetVectorAsNumpy({flags e}, o)") ++ line "return 0")) ++
    inner ++
    blank ++ nested s!"def {name}_length(self):"
      (found ++ suite "if o != 0:" (line "return self._tab.VectorLen(o)") ++ line "return 0") ++
    blank ++ nested s!"def {name}_is_none(self):" (found ++ line "return o == 0")

/-- The method that changes a field of a table, if there is one. -/
def tableMutator (env : Env) (f : FieldDef) : Code :=
  let name := env.namer.field f.name
  let t := f.type
  let e := t.elementType
  if t.isScalar then
    blank ++ nested s!"def mutate_{name}(self, value):"
      (offsetLine env f ++ suite "if o == 0:" (line "return False") ++
        line s!"flatbuffers.encode.Write({flags t}.packer_type, self._tab.Bytes, o + self._tab.Pos, value)" ++
        line "return True")
  else
    when (t.isVector && e.isScalar) <|
      blank ++ nested s!"def mutate_{name}(self, j, value):"
        (offsetLine env f ++ suite "if o == 0 or not 0 <= j < self._tab.VectorLen(o):" (line "return False") ++
          line s!"position = self._tab.Vector(o) + {uoffset}(j * {e.base.size})" ++
          line s!"flatbuffers.encode.Write({flags e}.packer_type, self._tab.Bytes, position, value)" ++
          line "return True")

/-- The accessors of a field of a table. -/
def tableField (env : Env) (f : FieldDef) : Except GenError Code := do
  let access ← if f.type.isVector then vectorAccessors env f else plainAccessor env f
  return blank ++ docComments f.doc ++ access ++ when env.options.mutableBuffer (tableMutator env f)

/-- The methods by which a buffer is read from its root. -/
def rootMethods (env : Env) (i : Nat) : Code :=
  when (env.schema.isRoot i || env.schema.isNestedRoot i)
    (blank ++ line "@classmethod" ++ suite "def from_root(cls, buf, offset=0):"
      (lines ["n = flatbuffers.encode.Get(flatbuffers.packer.uoffset, buf, offset)", "return cls(buf, n + offset)"])) ++
  match env.schema.isRoot i, env.schema.fileIdentifier with
  | true, some identifier =>
    blank ++ line s!"FILE_IDENTIFIER = b\"{identifier}\"" ++ blank ++ line "@classmethod" ++
      suite "def buffer_has_identifier(cls, buf, offset, size_prefixed=False):"
        (line ("return flatbuffers.util.BufferHasIdentifier(buf, offset, cls.FILE_IDENTIFIER, " ++
          "size_prefixed=size_prefixed)"))
  | _, _ => []

/-- The class that reads a table. -/
def tableClass (env : Env) (i : Nat) (d : StructDef) : Except GenError Code := do
  let live := d.liveFields
  let fields ← live.mapM (tableField env)
  return nested s!"class {env.namer.typeName d.name}(object):" <|
    docstring d.doc ++ line "__slots__ = ['_tab']" ++ blank ++
      lines (live.map fun f => s!"{slotConstant env f} = {f.offset}") ++ when (!live.isEmpty) blank ++
      suite "def __init__(self, buf, offset):" (line "self._tab = flatbuffers.table.Table(buf, offset)") ++
      rootMethods env i ++ nameString env d ++ fields.flatten

end FlatSchema.Python
