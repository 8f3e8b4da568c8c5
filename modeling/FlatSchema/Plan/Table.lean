import FlatSchema.Schema.Graph

/-!
# Building tables

The order in which the fields of a table are added, and the plan by which an object is packed into a table: what is stored out of
line is built first, then every field is added to its slot.
-/

namespace FlatSchema

/-- The fields of a table in the order in which they are added: from the last to the first, and in a sorted table those of 8
bytes first, then those of 4, 2 and 1. -/
def StructDef.createOrder (d : StructDef) : List FieldDef :=
  let backwards := d.liveFields.reverse
  if d.sortBySize then [8, 4, 2, 1].flatMap fun n => backwards.filter (fun f => f.type.base.size == n)
  else backwards

/-- Whether a table can be built by one call. A fixed struct has to be written after the table is started, so its bytes cannot be
given beforehand. -/
def Schema.singleCall (s : Schema) (d : StructDef) : Bool :=
  !d.liveFields.any fun f => f.type.isStruct && s.isFixedStruct f.type

/-- What is built before the table that holds it. -/
inductive ChildKind
  | string
  | table
  | union
  | scalarVector
  | stringVector
  | tableVector
  | structVector
  | unionVector
  | unionTypeVector
deriving DecidableEq, Repr

/-- How a field is added to its table. -/
inductive SlotKind
  | scalar
  | unionType
  | inlineStruct
  | offset
deriving DecidableEq, Repr

namespace Schema

/-- What a vector of elements of a type is. -/
def vectorKind (s : Schema) (e : TypeDesc) : ChildKind :=
  if e.base = .utype then .unionTypeVector
  else if e.isUnion then .unionVector
  else if e.isString then .stringVector
  else if e.isStruct && s.isFixedStruct e then .structVector
  else if e.isStruct then .tableVector
  else .scalarVector

/-- What has to be built beforehand for a value of a type. -/
def childKind? (s : Schema) (t : TypeDesc) : Option ChildKind :=
  if t.isString then some .string
  else if t.isUnion then some .union
  else if t.isStruct then (if s.isFixedStruct t then none else some .table)
  else if t.isVector then some (s.vectorKind t.elementType)
  else none

/-- How a value of a type is added. -/
def slotKind (s : Schema) (t : TypeDesc) : SlotKind :=
  if t.base = .utype then .unionType
  else if t.isScalar then .scalar
  else if t.isStruct && s.isFixedStruct t then .inlineStruct
  else .offset

end Schema

/-- The plan by which an object is packed: what is built first, in declaration order, and what is then added, in the order of
`createOrder`. -/
structure PackPlan where
  children : List (FieldDef × ChildKind)
  slots : List (FieldDef × SlotKind)
deriving DecidableEq, Repr

namespace PackPlan

/-- The plan of a table. -/
def of (s : Schema) (d : StructDef) : PackPlan where
  children := d.liveFields.filterMap fun f => (s.childKind? f.type).map (f, ·)
  slots := d.createOrder.map fun f => (f, s.slotKind f.type)

/-- What is built for a field. -/
def child? (p : PackPlan) (f : FieldDef) : Option ChildKind := p.children.lookup f

end PackPlan

end FlatSchema
