import FlatSchema.Schema.Graph

/-!
# Building fixed structs

Builders write a buffer from its end to its start, so a fixed struct is written from its last field to its first. The plan of a
struct lists the scalars that a builder is given, with the structs inside it flattened, and the steps that write them.
-/

namespace FlatSchema

/-- The array around a parameter: the place of the array field in the path, its length, and whether its elements are structs
whose fields were flattened. -/
structure ArraySpan where
  fieldIndex : Nat
  length : Nat
  ofStructs : Bool
deriving DecidableEq, Repr

/-- A scalar that the builder of a struct is given; inside an array it is a list of scalars. -/
structure StructParam where
  /-- The name of the field, after the names of the fields around it. -/
  name : String
  /-- The fields from the struct down to the value. -/
  path : List FieldDef
  type : TypeDesc
  span : Option ArraySpan
deriving DecidableEq, Repr

/-- The field that holds the value. -/
def StructParam.field? (p : StructParam) : Option FieldDef := p.path.getLast?

/-- A step of the builder of a struct. -/
inductive BuildOp
  /-- Aligns for a struct of some size. -/
  | prep (align size : Nat)
  /-- Writes zero bytes. -/
  | pad (count : Nat)
  /-- Writes a parameter, or its element for the current index inside an array. -/
  | put (param : String) (type : TypeDesc) (inArray : Bool)
  /-- Starts a loop over the elements of an array, from the last to the first. -/
  | beginArray (length : Nat)
  | endArray
deriving DecidableEq, Repr

/-- The parameters of a struct in declaration order, and its steps in the order in which they are taken. -/
structure StructPlan where
  params : List StructParam
  ops : List BuildOp
deriving DecidableEq, Repr

namespace StructPlan

/-- The parameters of the fields of a struct. The path and the array are those around the struct; the first argument bounds the
depth of structs inside structs. -/
def paramsOf (s : Schema) : Nat → StructDef → String → List FieldDef → Option ArraySpan → List StructParam
  | 0, _, _, _, _ => []
  | depth + 1, d, lead, path, span =>
    d.fields.flatMap fun f =>
      let chain := path ++ [f]
      let name := lead ++ f.name
      let t := f.type
      if t.isStruct then
        match s.structOf? t with
        | some inner => paramsOf s depth inner (name ++ "_") chain span
        | none => []
      else if t.isArray then
        let e := t.elementType
        let here : ArraySpan := { fieldIndex := path.length, length := t.length, ofStructs := e.isStruct }
        match e.isStruct, s.structOf? e with
        | true, some inner => paramsOf s depth inner (name ++ "_") chain (some here)
        | _, _ => [{ name, path := chain, type := e, span := some here }]
      else [{ name, path := chain, type := t, span }]

/-- The steps that write a struct. -/
def opsOf (s : Schema) : Nat → StructDef → String → Bool → List BuildOp
  | 0, _, _, _ => []
  | depth + 1, d, lead, inArray =>
    .prep d.minAlign d.byteSize :: d.fields.reverse.flatMap fun f =>
      let name := lead ++ f.name
      let t := f.type
      (if f.padding = 0 then [] else [BuildOp.pad f.padding]) ++
        if t.isStruct then
          match s.structOf? t with
          | some inner => opsOf s depth inner (name ++ "_") inArray
          | none => []
        else if t.isArray then
          let e := t.elementType
          let body := match e.isStruct, s.structOf? e with
            | true, some inner => opsOf s depth inner (name ++ "_") true
            | _, _ => [BuildOp.put name e true]
          .beginArray t.length :: body ++ [.endArray]
        else [.put name t inArray]

/-- The plan of a struct. Structs that contain each other without end do not occur, so their number bounds the depth. -/
def of (s : Schema) (d : StructDef) : StructPlan where
  params := paramsOf s (s.structs.length + 1) d "" [] none
  ops := opsOf s (s.structs.length + 1) d "" false

/-- The bytes that steps write, times the lengths of the arrays around them, innermost first. -/
def bytesOf : List Nat → List BuildOp → Nat
  | _, [] => 0
  | repeats, op :: rest =>
    let times := repeats.headD 1
    match op with
    | .prep _ _ => bytesOf repeats rest
    | .pad n => n * times + bytesOf repeats rest
    | .put _ t _ => t.base.size * times + bytesOf repeats rest
    | .beginArray n => bytesOf (times * n :: repeats) rest
    | .endArray => bytesOf repeats.tail rest

/-- The bytes that the plan of a struct writes. -/
def byteCount (p : StructPlan) : Nat := bytesOf [1] p.ops

end StructPlan

end FlatSchema
