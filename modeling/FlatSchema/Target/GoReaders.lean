import FlatSchema.Target.GoNames

/-!
# Readers in Go

Types that read fixed structs and tables in a buffer: their accessors, the methods that change scalars in place, the functions
that start at the root of a buffer, and the search by key.
-/

namespace FlatSchema.Go

open Code

/-- The type that reads a struct or table. -/
def readerType (site : Site) (d : StructDef) : Code :=
  let base := if d.fixed then "Struct" else "Table"
  clause s!"type {site.namer.typeName d.name} struct" (line s!"_tab flatbuffers.{base}") ++ blank

/-- The methods that set a reader to a place in a buffer and give the table behind it. -/
def readerMethods (site : Site) (d : StructDef) : Code :=
  let receiver := site.receiver d
  clause s!"{receiver} Init(buf []byte, i flatbuffers.UOffsetT)"
      (lines ["rcv._tab.Bytes = buf", "rcv._tab.Pos = i"]) ++
    blank ++
    clause s!"{receiver} Table() flatbuffers.Table"
      (line (if d.fixed then "return rcv._tab.Table" else "return rcv._tab"))

/-! ## Fixed structs -/

/-- The accessors of an array of a struct. -/
def structArray (site : Site) (receiver : String) (f : FieldDef) : Except GenError Code := do
  let name := site.accessor f
  let e := f.type.elementType
  let place := s!"rcv._tab.Pos + flatbuffers.UOffsetT({f.offset}+j*{site.schema.inlineSize e})"
  let access ←
    if e.isStruct then do
      let goal := site.structName (← site.structOf e)
      pure (clause (s!"{receiver} {name}(obj *" ++ goal ++ ", j int) *" ++ goal)
        (newIfNil goal ++ lines [s!"obj.Init(rcv._tab.Bytes, {place})", "return obj"]))
    else do
      let result ← site.readType e
      pure (clause (s!"{receiver} {name}(j int) " ++ result)
        (returns (site.castToEnum e s!"{site.getter e}({place})")))
  return access ++ blank ++ clause s!"{receiver} {name}Length() int" (line s!"return {f.type.length}")

/-- The accessors of a field of a struct. -/
def structAccessor (site : Site) (receiver : String) (f : FieldDef) : Except GenError Code := do
  let name := site.accessor f
  let t := f.type
  if t.isStruct then
    let goal := site.structName (← site.structOf t)
    return clause (s!"{receiver} {name}(obj *" ++ goal ++ ") *" ++ goal)
      (newIfNil goal ++ lines [s!"obj.Init(rcv._tab.Bytes, rcv._tab.Pos+{f.offset})", "return obj"])
  else if t.isArray then structArray site receiver f
  else
    let result ← site.readType t
    return clause (s!"{receiver} {name}() " ++ result)
      (returns (site.castToEnum t s!"{site.getter t}(rcv._tab.Pos + flatbuffers.UOffsetT({f.offset}))"))

/-- The method that changes a field of a struct, if there is one. -/
def structMutator (site : Site) (receiver : String) (f : FieldDef) : Except GenError Code := do
  let name := site.accessor f
  let t := f.type
  let e := t.elementType
  if t.isArray then
    if e.isStruct then return []
    else
      let value ← site.readType e
      let number := site.castToNumber e "n"
      return blank ++ clause (s!"{receiver} Mutate{name}(j int, n " ++ value ++ ") bool")
        (line (s!"return rcv._tab.Mutate{site.method e}(rcv._tab.Pos+flatbuffers.UOffsetT(" ++
          s!"{f.offset}+j*{e.base.size}), {number})"))
  else
    let value ← site.readType t
    let number := site.castToNumber t "n"
    return blank ++ clause (s!"{receiver} Mutate{name}(n " ++ value ++ ") bool")
      (line s!"return rcv._tab.Mutate{site.method t}(rcv._tab.Pos+flatbuffers.UOffsetT({f.offset}), {number})")

/-- What reads a fixed struct. -/
def structReader (site : Site) (d : StructDef) : Except GenError Code := do
  let receiver := site.receiver d
  let fields ← d.fields.mapM fun f => do
    let access ← structAccessor site receiver f
    let change ← if site.options.mutableBuffer && !f.type.isStruct then structMutator site receiver f else .ok []
    return blank ++ docs f.doc ++ access ++ change
  return readerType site d ++ readerMethods site d ++ fields.flatten

/-! ## Tables -/

/-- The two forms of a buffer, plain and with its size in front: the word in names and the step over the size. -/
def bufferForms : List (String × String) := [("", ""), ("SizePrefixed", "+flatbuffers.SizeUint32")]

/-- The functions that read and finish buffers of a root. -/
def rootFunctions (site : Site) (i : Nat) (d : StructDef) : Code :=
  let name := site.namer.typeName d.name
  let isRoot := site.schema.isRoot i
  let identifier := if isRoot then site.schema.fileIdentifier else none
  let identified := identifier.isSome
  let constant : Code := match identifier with
    | some id => line s!"const {name}Identifier = \"{id}\"" ++ blank
    | none => []
  let reading := bufferForms.flatMap fun (form, skip) =>
    clause s!"func Get{form}RootAs{name}(buf []byte, offset flatbuffers.UOffsetT) *{name}"
      (lines [s!"n := flatbuffers.GetUOffsetT(buf[offset{skip}:])", s!"x := &{name}\x7b\x7d",
        s!"x.Init(buf, n+offset{skip})", "return x"]) ++ blank
  let finishing := bufferForms.flatMap fun (form, _) =>
    clause s!"func Finish{form}{name}Buffer(builder *flatbuffers.Builder, offset flatbuffers.UOffsetT)"
      (if identified then
        lines [s!"identifierBytes := []byte({name}Identifier)",
          s!"builder.Finish{form}WithFileIdentifier(offset, identifierBytes)"]
      else line s!"builder.Finish{form}(offset)") ++ blank ++
    when identified
      (clause s!"func {form}{name}BufferHasIdentifier(buf []byte) bool"
        (line s!"return flatbuffers.{form}BufferHasIdentifier(buf, {name}Identifier)") ++ blank)
  when (isRoot || site.schema.isNestedRoot i) (constant ++ reading ++ when isRoot finishing)

/-- The accessor of a vector's element by the key of its table, if that has one. -/
def byKeyAccessor (site : Site) (receiver : String) (f : FieldDef) (d : StructDef) : Except GenError Code := do
  match d.fixed, d.keyField? with
  | false, some key =>
    let keyType ← site.objectType key.type
    return blank ++ braced (s!"{receiver} {site.accessor f}ByKey(obj *" ++ site.structName d ++ ", key " ++ keyType ++
        ") bool")
      (ifPresent f (lines ["x := rcv._tab.Vector(o)", "return obj.LookupByKey(key, x, rcv._tab.Bytes)"]) "false")
  | _, _ => return []

/-- The accessor of an element of a vector. -/
def elementAccessor (site : Site) (receiver : String) (f : FieldDef) : Except GenError Code := do
  let name := site.accessor f
  let e := f.type.elementType
  let stride := site.schema.inlineSize e
  if e.isStruct then
    let d ← site.structOf e
    let found := lines ["x := rcv._tab.Vector(o)", s!"x += flatbuffers.UOffsetT(j) * {stride}"] ++
      when (!site.schema.isFixedStruct e) (line "x = rcv._tab.Indirect(x)") ++
      lines ["obj.Init(rcv._tab.Bytes, x)", "return true"]
    return braced (s!"{receiver} {name}(obj *" ++ site.structName d ++ ", j int) bool") (ifPresent f found "false") ++
      (← byKeyAccessor site receiver f d)
  else if e.isUnion then
    return braced s!"{receiver} {name}(obj *flatbuffers.Table, j int) bool"
      (ifPresent f (lines ["a := rcv._tab.Vector(o)",
        s!"rcv._tab.Union(obj, a+flatbuffers.UOffsetT(j*{stride})-rcv._tab.Pos)", "return true"]) "false")
  else
    let result ← site.readType e
    let fallback := match e.base with
      | .string => "nil"
      | .bool => "false"
      | _ => "0"
    return braced (s!"{receiver} {name}(j int) " ++ result)
      (ifPresent f (line "a := rcv._tab.Vector(o)" ++
        returns (site.castToEnum e s!"{site.getter e}(a + flatbuffers.UOffsetT(j*{stride}))")) fallback)

/-- The accessors of a vector of bytes as a whole, and of the buffer that it holds. -/
def bytesAccessors (site : Site) (receiver : String) (f : FieldDef) : Except GenError Code := do
  let name := site.accessor f
  let inner ← match f.nested with
    | none => pure []
    | some i => do
      let d ← site.structAt i
      pure (blank ++ clause (s!"{receiver} {name}NestedRoot() *" ++ site.structName d)
        (line s!"buf := rcv.{name}Bytes()" ++ clause "if buf == nil" (line "return nil") ++
          returns (site.qualify d.scope s!"GetRootAs{site.namer.typeName d.name}" ++ "(buf, 0)")))
  return blank ++ braced s!"{receiver} {name}Bytes() []byte"
    (ifPresent f (line "return rcv._tab.ByteVector(o + rcv._tab.Pos)") "nil") ++ inner

/-- The accessors of a vector. -/
def vectorAccessors (site : Site) (receiver : String) (f : FieldDef) : Except GenError Code := do
  let element ← elementAccessor site receiver f
  let bytes ← if site.isByte f.type.elementType then bytesAccessors site receiver f else .ok []
  return element ++ blank ++
    braced s!"{receiver} {site.accessor f}Length() int" (ifPresent f (line "return rcv._tab.VectorLen(o)") "0") ++ bytes

/-- The accessors of a field of a table. -/
def tableAccessors (site : Site) (receiver : String) (f : FieldDef) : Except GenError Code := do
  let name := site.accessor f
  let t := f.type
  if t.isScalar then
    let result ← site.readType t
    return braced (s!"{receiver} {name}() " ++ result)
      (ifPresent f (returns (site.castToEnum t s!"{site.getter t}(o + rcv._tab.Pos)")) (defaultLiteral f))
  else
    match t.base with
    | .struct =>
      let goal := site.structName (← site.structOf t)
      let place := if site.schema.isFixedStruct t then "o + rcv._tab.Pos" else "rcv._tab.Indirect(o + rcv._tab.Pos)"
      return braced (s!"{receiver} {name}(obj *" ++ goal ++ ") *" ++ goal)
        (ifPresent f (line s!"x := {place}" ++ newIfNil goal ++ lines ["obj.Init(rcv._tab.Bytes, x)", "return obj"])
          "nil")
    | .string =>
      return braced s!"{receiver} {name}() []byte"
        (ifPresent f (line "return rcv._tab.ByteVector(o + rcv._tab.Pos)") "nil")
    | .union =>
      return braced s!"{receiver} {name}(obj *flatbuffers.Table) bool"
        (ifPresent f (lines [s!"{site.getter t}(obj, o)", "return true"]) "false")
    | .vector => vectorAccessors site receiver f
    | _ => return []

/-- The method that changes a field of a table, if there is one. -/
def tableMutator (site : Site) (receiver : String) (f : FieldDef) : Except GenError Code := do
  let name := site.accessor f
  let t := f.type
  let e := t.elementType
  if t.isScalar then
    let value ← site.readType t
    let number := site.castToNumber t "n"
    return blank ++ clause (s!"{receiver} Mutate{name}(n " ++ value ++ ") bool")
      (line s!"return rcv._tab.Mutate{site.method t}Slot({f.offset}, {number})")
  else if t.isVector && e.isScalar then
    let value ← site.readType e
    let number := site.castToNumber e "n"
    return blank ++ braced (s!"{receiver} Mutate{name}(j int, n " ++ value ++ ") bool")
      (ifPresent f (lines ["a := rcv._tab.Vector(o)",
        s!"return rcv._tab.Mutate{site.method e}(a+flatbuffers.UOffsetT(j*{e.base.size}), {number})"]) "false")
  else return []

/-- The function that compares two tables by their keys. -/
def keyCompare (site : Site) (d : StructDef) (key : FieldDef) : Code :=
  let name := site.namer.typeName d.name
  let value (obj : String) : String :=
    let read := s!"{obj}.{site.accessor key}()"
    if key.type.isString then s!"string({read})" else read
  braced s!"func {name}KeyCompare(o1, o2 flatbuffers.UOffsetT, buf []byte) bool" <|
    lines [s!"obj1 := &{name}\x7b\x7d", s!"obj2 := &{name}\x7b\x7d",
      "obj1.Init(buf, flatbuffers.UOffsetT(len(buf))-o1)", "obj2.Init(buf, flatbuffers.UOffsetT(len(buf))-o2)",
      "return " ++ value "obj1" ++ " < " ++ value "obj2"]

/-- Branches one after the other, each with its head and an inset body, behind a text for the first of them. -/
def branches (lead : String) : List (String × Code) → Code
  | [] => line "\x7d"
  | (head, body) :: rest => line (lead ++ head ++ " \x7b" : String) ++ inset "\t" body ++ branches "\x7d " rest

/-- The comparison of a table's key with the key that is looked for. -/
def keyOrder (site : Site) (key : FieldDef) : Code :=
  let read := s!"obj.{site.accessor key}()"
  if key.type.isString then line s!"comp := bytes.Compare({read}, bKey)"
  else
    lines [s!"val := {read}", "comp := 0"] ++
      branches "" [("if val > key", line "comp = 1"), ("else if val < key", line "comp = -1")]

/-- The method that looks for a key in a sorted vector of tables, by halves. -/
def lookupByKey (site : Site) (d : StructDef) (key : FieldDef) : Except GenError Code := do
  let keyType ← site.objectType key.type
  return braced (s!"{site.receiver d} LookupByKey(key " ++ keyType ++
      ", vectorLocation flatbuffers.UOffsetT, buf []byte) bool") <|
    lines ["span := flatbuffers.GetUOffsetT(buf[vectorLocation-4:])", "start := flatbuffers.UOffsetT(0)"] ++
      when key.type.isString (require bytesImport ++ line "bKey := []byte(key)") ++
      braced "for span != 0"
        (lines ["middle := span / 2",
            "tableOffset := flatbuffers.GetIndirectOffset(buf, vectorLocation+4*(start+middle))",
            s!"obj := &{site.namer.typeName d.name}\x7b\x7d", "obj.Init(buf, tableOffset)"] ++
          keyOrder site key ++
          branches "" [("if comp > 0", line "span = middle"),
            ("else if comp < 0", lines ["middle += 1", "start += middle", "span -= middle"]),
            ("else", lines ["rcv.Init(buf, tableOffset)", "return true"])]) ++
      line "return false"

/-- What reads a table. -/
def tableReader (site : Site) (i : Nat) (d : StructDef) : Except GenError Code := do
  let receiver := site.receiver d
  let fields ← d.liveFields.mapM fun f => do
    let access ← tableAccessors site receiver f
    let change ← if site.options.mutableBuffer then tableMutator site receiver f else .ok []
    return blank ++ docs f.doc ++ access ++ change
  let search ← match d.keyField? with
    | some key => do pure (blank ++ keyCompare site d key ++ blank ++ (← lookupByKey site d key))
    | none => pure []
  return readerType site d ++ rootFunctions site i d ++ readerMethods site d ++ fields.flatten ++ search

end FlatSchema.Go
