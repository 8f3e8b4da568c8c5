import FlatSchema.Plan.Loops
import FlatSchema.Target.CSharpNames

/-!
# Enums and fixed structs in C#
-/

namespace FlatSchema.CSharp

open Code

/-- An enum or the variants of a union. -/
def enumCode (env : Env) (e : EnumDef) : Code :=
  docs e.doc ++ when e.isBitFlags (line "[System.FlagsAttribute]") ++
    line s!"public enum {env.namer.typeName e.name} : {numberType e.underlying.base}" ++
    block "\x7b"
      (e.vals.flatMap fun v => docs v.doc ++ line s!"{env.namer.variant v.name} = {e.valueText v.value},") "\x7d;"

/-- The class of the runtime library behind a struct or table. -/
def runtimeClass (d : StructDef) : String := if d.fixed then "Struct" else "Table"

/-- The methods that set a struct or table to a place in a buffer. -/
def placement (env : Env) (d : StructDef) : Code :=
  texts [
    "public void __init(int _i, ByteBuffer _bb) " ++ inBraces s!"__p = new {runtimeClass d}(_i, _bb);",
    s!"public {env.namer.typeName d.name} __assign(int _i, ByteBuffer _bb) " ++
      inBraces "__init(_i, _bb); return this;"]

/-- The type of a struct or table, with the members that all such types have and those given. -/
def objectType (env : Env) (d : StructDef) (members : Code) : Code :=
  docs d.doc ++ line s!"public struct {env.namer.typeName d.name} : IFlatbufferObject" ++
    block "\x7b"
      (line s!"private {runtimeClass d} __p;" ++
        line ("public ByteBuffer ByteBuffer " ++ getter "return __p.bb;" : String) ++ members) "\x7d;"

/-- The members of an array of a struct. -/
def structArray (env : Env) (d : StructDef) (f : FieldDef) : Except GenError Code := do
  let name := member env d f
  let param := env.namer.param f.name
  let e := f.type.elementType
  let place := s!"__p.bb_pos + {f.offset} + j * {env.schema.inlineSize e}"
  let count := line s!"public const int {name}Length = {f.type.length};"
  if e.isStruct then
    let goal := structName env (← env.structOf e)
    return line (s!"public {goal} {name}(int j) " ++ inBraces s!"return (new {goal}()).__assign({place}, __p.bb);") ++ count
  else
    let t ← readType env e
    return line (s!"public {t} {name}(int j) " ++ inBraces s!"return {castToEnum env e (readScalar e place)};") ++ count ++
      when env.options.mutableBuffer
        (line (s!"public void Mutate{name}(int j, {t} {param}) " ++
          inBraces (writeScalar e place (castToNumber env e param) ++ ";")))

/-- The members of a field of a struct. -/
def structField (env : Env) (d : StructDef) (f : FieldDef) : Except GenError Code := do
  let name := member env d f
  let param := env.namer.param f.name
  let t := f.type
  let place := s!"__p.bb_pos + {f.offset}"
  if t.isStruct then
    let goal := structName env (← env.structOf t)
    return line (s!"public {goal} {name} " ++ getter s!"return (new {goal}()).__assign({place}, __p.bb);")
  else if t.isArray then structArray env d f
  else
    let result ← readType env t
    return line (s!"public {result} {name} " ++ getter s!"return {castToEnum env t (readScalar t place)};") ++
      when env.options.mutableBuffer
        (line (s!"public void Mutate{name}({result} {param}) " ++
          inBraces (writeScalar t place (castToNumber env t param) ++ ";")))

/-- How the steps of a struct's builder are written. -/
def spelling (env : Env) : BuilderSpelling where
  prep align size := s!"builder.Prep({align}, {size});"
  pad n := s!"builder.Pad({n});"
  put t value := s!"builder.Put{methodSuffix t.base}({castToNumber env t value});"
  loop index n := s!"for (int {index} = {n - 1}; {index} >= 0; {index}--) \x7b"
  loopEnd := line "\x7d"
  param := env.namer.param

/-- A parameter of the method that writes a struct. -/
def structParam (env : Env) (p : StructParam) : Except GenError String := do
  let t ← readType env p.type
  return (if p.span.isSome then t ++ "[] " else t ++ " ") ++ env.namer.param p.name

/-- The method that writes a fixed struct. -/
def structCreator (env : Env) (d : StructDef) : Except GenError Code := do
  let name := structName env d
  let plan := StructPlan.of env.schema d
  let params ← plan.params.mapM (structParam env)
  let list := ", ".intercalate params
  return braced s!"public static Offset<{name}> Create{env.namer.typeName d.name}(FlatBufferBuilder builder, {list})"
    ((spelling env).code 0 plan.ops ++ line s!"return new Offset<{name}>(builder.Offset);")

/-- The code of a fixed struct. -/
def structCode (env : Env) (d : StructDef) : Except GenError Code := do
  let fields ← d.fields.mapM fun f => do return docs f.doc ++ (← structField env d f)
  let creator ← structCreator env d
  return objectType env d (placement env d ++ blank ++ fields.flatten ++ blank ++ creator)

end FlatSchema.CSharp
