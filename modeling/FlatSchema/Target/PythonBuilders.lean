import FlatSchema.Plan.Loops
import FlatSchema.Plan.Table
import FlatSchema.Target.PythonNames

/-!
# Builders in Python

Functions that write fixed structs, and classes that build tables.
-/

namespace FlatSchema.Python

open Code

/-- How the steps of a struct's builder are written. -/
def spelling (env : Env) : BuilderSpelling where
  prep align size := s!"builder.Prep({align}, {size})"
  pad n := s!"builder.Pad({n})"
  put t value := s!"builder.Prepend{numberSuffix t}({value})"
  loop index n := s!"for {index} in range({n} - 1, -1, -1):"
  loopEnd := []
  param := env.namer.param

/-- The function that writes a fixed struct. -/
def structBuilder (env : Env) (d : StructDef) : Code :=
  let plan := StructPlan.of env.schema d
  let params := ", ".intercalate (plan.params.map fun p => env.namer.param p.name)
  nested s!"def {structCreator env d}(builder, {params}):"
    ((spelling env).code 0 plan.ops ++ line "return builder.Offset()")

/-- The call that adds a field to a table. -/
def addCall (env : Env) (f : FieldDef) : String :=
  let param := env.namer.param f.name
  if f.type.isScalar then
    s!"self._builder.Prepend{numberSuffix f.type}Slot({f.slot}, {param}, {defaultLiteral f})"
  else if env.schema.isFixedStruct f.type && f.type.isStruct then
    s!"self._builder.PrependStructSlot({f.slot}, {uoffset}({param}), 0)"
  else s!"self._builder.PrependUOffsetTRelativeSlot({f.slot}, {uoffset}({param}), 0)"

/-- The size and alignment of the elements of a vector. -/
def elementRoom (env : Env) (e : TypeDesc) : Nat × Nat :=
  let plain := (env.schema.inlineSize e, env.schema.inlineAlignment e)
  match env.schema.structOf? e with
  | some d => if d.fixed then (d.byteSize, d.minAlign) else plain
  | none => plain

/-- The methods that add a field, and start it if it is a vector. -/
def addMethods (env : Env) (f : FieldDef) : Code :=
  let name := env.namer.field f.name
  let (size, align) := elementRoom env f.type.elementType
  blank ++ nested s!"def add_{name}(self, {env.namer.param f.name}):" (line (addCall env f) ++ line "return self") ++
    when f.type.isVector (blank ++ line "@staticmethod" ++ suite s!"def start_{name}_vector(builder, num_elems):"
      (line s!"return builder.StartVector({size}, num_elems, {align})"))

/-- The check that a required field was added. -/
def requiredCheck (d : StructDef) (f : FieldDef) : Code :=
  suite s!"if self._builder.current_vtable[{f.slot}] == 0:"
    (line s!"raise ValueError(\"missing required field '{f.name}' in {d.name}\")")

/-- The method that builds a table by one call. -/
def createMethod (env : Env) (d : StructDef) : Code :=
  let initial (f : FieldDef) : String := if f.type.isScalar then defaultLiteral f else "0"
  let params := String.join (d.liveFields.map fun f => s!", {env.namer.param f.name}={initial f}")
  blank ++ line "@classmethod" ++ nested s!"def create(cls, builder{params}):"
    (line "table = cls(builder).start()" ++
      lines (d.createOrder.map fun f => s!"table.add_{env.namer.field f.name}({env.namer.param f.name})") ++
      line "return table.finish()")

/-- The method that finishes a buffer of the root. -/
def finishBuffer (env : Env) : Code :=
  let identifier := match env.schema.fileIdentifier with
    | some id => s!"b\"{id}\""
    | none => "None"
  blank ++ line "@staticmethod" ++
    suite "def finish_buffer(builder, root, size_prefixed=False):"
      (suite "if size_prefixed:" (line s!"builder.FinishSizePrefixed(root, file_identifier={identifier})") ++
        suite "else:" (line s!"builder.Finish(root, file_identifier={identifier})"))

/-- The class that builds a table. -/
def tableBuilder (env : Env) (i : Nat) (d : StructDef) : Code :=
  nested s!"class {builderClass env d}(object):" <|
    line "__slots__ = ['_builder']" ++ blank ++
      suite "def __init__(self, builder):" (line "self._builder = builder") ++ blank ++
      suite "def start(self):" (line s!"self._builder.StartObject({d.fields.length})" ++ line "return self") ++
      d.liveFields.flatMap (addMethods env) ++ blank ++
      nested "def finish(self):" ((d.liveFields.filter (·.required)).flatMap (requiredCheck d) ++
        line "return self._builder.EndObject()") ++
      when (env.schema.singleCall d) (createMethod env d) ++
      when (env.schema.isRoot i) (finishBuffer env)

end FlatSchema.Python
