import FlatSchema.Schema.Error
import FlatSchema.Schema.Graph

/-!
# Valid schemas

The rules that every generator relies on. `Schema.validate` reports the first one that a schema breaks: names, then enums and
unions, then structs and tables with their keys, then the root.
-/

namespace FlatSchema.Validity

/-- Refuses a schema for breaking a rule. -/
def refuse (rule : Violation) : Except LoadError Unit := .error (.violation rule)

/-- Refuses a schema for breaking a rule unless a condition holds. -/
def demand (condition : Bool) (rule : Violation) : Except LoadError Unit :=
  if condition then .ok () else refuse rule

/-- A name has to be an identifier. -/
def checkName (kind : NameKind) (name : String) : Except LoadError Unit :=
  demand (isIdentifier name) (.badName kind name)

/-- The name of a definition and the components of its namespace are identifiers. -/
def checkQualified (name : String) (scope : Namespace) : Except LoadError Unit := do
  checkName .definition name
  scope.components.forM (checkName .component)

/-- All names of a schema are identifiers. -/
def checkNames (s : Schema) : Except LoadError Unit := do
  s.enums.forM fun e => checkQualified e.name e.scope
  s.structs.forM fun d => checkQualified d.name d.scope
  s.enums.forM fun e => e.vals.forM fun v => checkName .enumValue v.name
  s.structs.forM fun d => d.fields.forM fun f => checkName .field f.name

/-- The value of a member as a number of the underlying type. -/
def memberNumber (base : BaseType) (v : EnumVal) : Int :=
  if base = .ulong then unsigned64 v.value else v.value

/-- The members of an enum have different names and values in range, and variants carry tables or strings. -/
def checkMembers (s : Schema) (e : EnumDef) (low high : Int) : List String → List EnumVal → Except LoadError Unit
  | _, [] => .ok ()
  | seen, v :: rest => do
    demand (!seen.contains v.name) (.memberTwice v.name e.name)
    let n := memberNumber e.underlying.base v
    if n < low ∨ high < n then .error (.enumValue e.name (toString v.value))
    else
      demand (!e.isUnion || v.isZero || v.payload.isString || s.isTable v.payload) (.badPayload e.name v.name)
      checkMembers s e low high (v.name :: seen) rest

/-- Rules of enums and unions. -/
def checkEnum (s : Schema) (e : EnumDef) : Except LoadError Unit :=
  match e.underlying.base.range with
  | none => refuse (.enumNotInteger e.name)
  | some (low, high) => checkMembers s e low high [] e.vals

/-- Whether an array stands in a struct or in a struct inside it, down to a given depth. The schema compiler searches without a depth:
where a table that contains itself through its fields is an element of an array, or stands in one, its search does not end. Here the
answer is then that no array was found, and the schema is refused because a fixed struct holds a table. -/
def containsArray (s : Schema) : Nat → StructDef → Bool
  | 0, _ => false
  | depth + 1, d => d.fields.any fun f =>
    f.type.isArray || (f.type.isStruct && (match s.structOf? f.type with
      | some inner => containsArray s depth inner
      | none => false))

/-- Whether an array may have elements of a given type: scalars, or fixed structs without arrays in them. No chain of different
structs is longer than their number. -/
def arrayElementOk (s : Schema) (t : TypeDesc) : Bool :=
  (t.isScalar || (t.isStruct && s.isFixedStruct t)) &&
    !(match s.structOf? t with
      | some inner => containsArray s s.structs.length inner
      | none => false)

/-- Rules of a field of a fixed struct. -/
def checkStructField (s : Schema) (d : StructDef) (f : FieldDef) : Except LoadError Unit := do
  let t := f.type
  let allowed := t.isScalar || (t.isStruct && s.isFixedStruct t) || t.isArray
  demand (allowed && !t.isDiscriminant) (.structField d.name f.name)
  demand (!t.isArray || arrayElementOk s t.elementType) (.arrayElement d.name f.name)
  demand (!f.deprecated) (.deprecatedInStruct d.name f.name)

/-- The size of a fixed struct that its fields and their padding add up to. -/
def fieldBytes (s : Schema) (d : StructDef) : Nat :=
  (d.fields.map fun f => s.inlineSize f.type + f.padding).foldr (· + ·) 0

/-- Rules of fixed structs. -/
def checkFixed (s : Schema) (d : StructDef) : Except LoadError Unit := do
  demand (!d.fields.isEmpty) (.emptyStruct d.name)
  d.fields.forM (checkStructField s d)
  let n := fieldBytes s d
  if n = d.byteSize then .ok () else .error (.layoutMismatch d.name d.byteSize n)

/-- A rule of a field of a table or of a key. -/
def demandField (d : StructDef) (f : FieldDef) (condition : Bool) (fault : FieldFault) : Except LoadError Unit :=
  demand condition (.badField d.name f.name fault)

/-- Whether a field may hold the buffer of the table at some place. -/
def nestedOk (s : Schema) (t : TypeDesc) (i : Nat) : Bool :=
  t.isVector && t.element == .ubyte && !((s.structs[i]?.map (·.fixed)).getD false)

/-- Rules of a field of a table. -/
def checkTableField (s : Schema) (d : StructDef) (f : FieldDef) : Except LoadError Unit := do
  let t := f.type
  demandField d f (!t.isArray) .arrayInTable
  demandField d f (!(t.isVector && t.element.isContainer)) .vectorOfVectors
  demandField d f (!(f.required && t.isScalar)) .requiredScalar
  demandField d f (match f.nested with
    | none => true
    | some i => nestedOk s t i) .nestedBuffer

/-- At most one field is the key, and it is a scalar or a string. -/
def checkKey (d : StructDef) : Except LoadError Unit :=
  match d.fields.filter (·.key) with
  | [] => .ok ()
  | [f] => demandField d f ((f.type.isScalar || f.type.isString) && !f.type.isDiscriminant) .keyType
  | _ => refuse (.manyKeys d.name)

/-- Rules of fixed structs and tables. -/
def checkStruct (s : Schema) (d : StructDef) : Except LoadError Unit := do
  if d.fixed then checkFixed s d else d.fields.forM (checkTableField s d)
  checkKey d

/-- The root is a table. -/
def checkRoot (s : Schema) : Except LoadError Unit :=
  match s.rootStruct? with
  | some d => demand (!d.fixed) (.rootFixed d.name)
  | none => .ok ()

end FlatSchema.Validity

namespace FlatSchema

/-- Checks all rules of a schema. -/
def Schema.validate (s : Schema) : Except LoadError Unit := do
  Validity.checkNames s
  s.enums.forM (Validity.checkEnum s)
  s.structs.forM (Validity.checkStruct s)
  Validity.checkRoot s

end FlatSchema
