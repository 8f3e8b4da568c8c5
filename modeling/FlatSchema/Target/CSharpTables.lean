import FlatSchema.Target.CSharpNames

/-!
# Members of tables in C#

The members that read the fields of a table and change scalars in place.
-/

namespace FlatSchema.CSharp

open Code

/-- The statements that look for a field and give one of two values. -/
def ifPresent (f : FieldDef) (found fallback : String) : String :=
  s!"int o = __p.__offset({f.offset}); return o != 0 ? {found} : {fallback};"

/-- The statements that write a field if it is there. -/
def writeIfPresent (f : FieldDef) (write : String) : String :=
  s!"int o = __p.__offset({f.offset}); if (o != 0) " ++ inBraces (write ++ "; return true;") ++ " else " ++
    inBraces "return false;"

/-- The expression for a struct or table at some place, which may be absent. -/
def assigned (goal place : String) : String := s!"({goal}?)(new {goal}()).__assign({place}, __p.bb)"

/-- What a generic type of a union's payload has to be. -/
def payloadBound : String := "where TTable : struct, IFlatbufferObject"

/-- Access to the storage of a string or of a vector of scalars. -/
def byteSegments (name : String) (f : FieldDef) (element : BaseType) : Code :=
  let t := numberType element
  texts [
    "#if ENABLE_SPAN_T",
    s!"public Span<{t}> Get{name}Bytes() " ++
      inBraces s!"return __p.__vector_as_span<{t}>({f.offset}, {element.size});",
    "#else",
    s!"public ArraySegment<byte>? Get{name}Bytes() " ++ inBraces s!"return __p.__vector_as_arraysegment({f.offset});",
    "#endif",
    s!"public {t}[] Get{name}Array() " ++ inBraces s!"return __p.__vector_as_array<{t}>({f.offset});"]

/-- The member that gives the payload of one variant of a union. -/
def variantMember (env : Env) (f : FieldDef) (name : String) (v : EnumVal) : Except GenError Code := do
  let variant := env.namer.typeName v.name
  if v.payload.isString then
    return line (s!"public string {name}As{variant}() " ++
      inBraces (ifPresent f "__p.__union_string(o + __p.bb_pos)" "null"))
  else
    let goal := structName env (← env.structOf v.payload)
    return line (s!"public {goal} {name}As{variant}() " ++ inBraces s!"return {name}<{goal}>().Value;")

/-- The member that gives an element of a vector. -/
def elementMember (env : Env) (f : FieldDef) (name : String) : Except GenError String := do
  let e := f.type.elementType
  let place := s!"__p.__vector(o) + j * {env.schema.inlineSize e}"
  match e.base with
  | .struct =>
    let goal := structName env (← env.structOf e)
    let place := if env.schema.isFixedStruct e then place else s!"__p.__indirect({place})"
    return s!"public {goal}? {name}(int j) " ++ inBraces (ifPresent f (assigned goal place) "null")
  | .string => return s!"public string {name}(int j) " ++ inBraces (ifPresent f s!"__p.__string({place})" "null")
  | .union =>
    return s!"public TTable? {name}<TTable>(int j) {payloadBound} " ++
      inBraces (ifPresent f s!"(TTable?)__p.__union<TTable>({place})" "null")
  | b =>
    let t ← readType env e
    let fallback := if b = .bool then "false" else s!"({t})0"
    return s!"public {t} {name}(int j) " ++ inBraces (ifPresent f (castToEnum env e (readScalar e place)) fallback)

/-- The member that gives the buffer that a vector of bytes holds. -/
def nestedMember (env : Env) (f : FieldDef) (name : String) : Except GenError Code := do
  match f.nested with
  | none => return []
  | some i =>
    let d ← env.structAt i
    let goal := structName env d
    return line (s!"public {goal}? Get{name}As{env.namer.typeName d.name}() " ++
      inBraces (ifPresent f (assigned goal "__p.__indirect(__p.__vector(o))") "null"))

/-- The member that looks for an element of a vector by its key. -/
def byKeyMember (env : Env) (f : FieldDef) (name : String) : Except GenError Code := do
  if f.type.elementType.isStruct then
    let d ← env.structOf f.type.elementType
    match d.fixed, d.keyField? with
    | false, some key =>
      let goal := structName env d
      let keyType ← readType env key.type
      return line (s!"public {goal}? {name}ByKey({keyType} key) " ++
        inBraces (ifPresent f s!"{goal}.__lookup_by_key(__p.__vector(o), key, __p.bb)" "null"))
    | _, _ => return []
  else return []

/-- The members of a vector. -/
def vectorMembers (env : Env) (f : FieldDef) (name : String) : Except GenError Code := do
  let param := env.namer.param f.name
  let e := f.type.elementType
  let element ← elementMember env f name
  let nested ← nestedMember env f name
  let byKey ← byKeyMember env f name
  let t ← readType env e
  let change := s!"public bool Mutate{name}(int j, {t} {param}) " ++
    inBraces (writeIfPresent f
      (writeScalar e s!"__p.__vector(o) + j * {e.base.size}" (castToNumber env e param)))
  return line element ++
    line (s!"public int {name}Length " ++ getter (ifPresent f "__p.__vector_len(o)" "0") : String) ++
    when (e.isScalar && e.base ≠ .bool && (env.schema.scalarEnum? e).isNone) (byteSegments name f e.base) ++
    nested ++ byKey ++ when (env.options.mutableBuffer && e.isScalar) (line change)

/-- The members of a field that is a scalar. -/
def scalarMembers (env : Env) (f : FieldDef) (name : String) : Except GenError Code := do
  let t := f.type
  let place := "o + __p.bb_pos"
  let param := env.namer.param f.name
  let result ← readType env t
  return line (s!"public {result} {name} " ++
      getter (ifPresent f (castToEnum env t (readScalar t place)) (defaultValue env f)) : String) ++
    when env.options.mutableBuffer
      (line (s!"public bool Mutate{name}({result} {param}) " ++
        inBraces (writeIfPresent f (writeScalar t place (castToNumber env t param))) : String))

/-- The members of a field of a table. -/
def tableMembers (env : Env) (d : StructDef) (f : FieldDef) : Except GenError Code := do
  let name := member env d f
  let t := f.type
  if t.isScalar then scalarMembers env f name
  else
    match t.base with
    | .struct =>
      let goal := structName env (← env.structOf t)
      let place := if env.schema.isFixedStruct t then "o + __p.bb_pos" else "__p.__indirect(o + __p.bb_pos)"
      return line (s!"public {goal}? {name} " ++ getter (ifPresent f (assigned goal place) "null") : String)
    | .string =>
      return line (s!"public string {name} " ++ getter (ifPresent f "__p.__string(o + __p.bb_pos)" "null") : String) ++
        byteSegments name f .ubyte
    | .union =>
      let variants ← (← env.enumOf t).variants.mapM (variantMember env f name)
      return line (s!"public TTable? {name}<TTable>() {payloadBound} " ++
        inBraces (ifPresent f "(TTable?)__p.__union<TTable>(o + __p.bb_pos)" "null") : String) ++ variants.flatten
    | .vector => vectorMembers env f name
    | _ => return []

end FlatSchema.CSharp
