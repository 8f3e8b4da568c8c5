import FlatSchema.Proofs.Lookups
import FlatSchema.Target.GoPackage

/-!
# Go code is always given

For a closed schema every generator of Go gives a result. A type is asked for its name as it is read, which needs what it stands
for, and as a member of an object, where it also has to be of a kind that objects have.
-/

namespace FlatSchema.Go

variable {site : Site} {t : TypeDesc} {d : StructDef} {e : EnumDef} {f : FieldDef}

/-! ## Names -/

/-- A value that is read in place has a type in Go, if its definition is found. -/
theorem returns_readAtom (h : t.Found site.schema) : Returns (site.readAtom t) := by
  unfold Site.readAtom
  split
  next => exact .ok _
  next =>
    refine .ite (fun _ => .ok _) fun _ => .ite (fun _ => .ok _) fun _ => ?_
    exact .ite (fun hb => (Env.returns_structOf h hb).map) fun _ => .ok _

/-- Behind a layer of a vector or an array there is a type that can be read. -/
theorem returns_readType (h : t.Layered site.schema) : Returns (site.readType t) :=
  returns_readAtom h.innermost.toFound

/-- The type of a member of an object that holds no list is known. -/
theorem returns_objectAtom (h : t.Atom site.schema) : Returns (site.objectAtom t) := by
  unfold Site.objectAtom
  split
  next => exact .ok _
  next =>
    refine .ite (fun _ => .ok _) fun hscalar => .ite (fun _ => .ok _) fun hstring => ?_
    refine .ite (fun hb => (Env.returns_structOf h.toFound hb).map) fun hstruct => ?_
    -- what is left is a union
    rcases h.kind with hk | hk | hk | hk
    · exact absurd hk hscalar
    · exact absurd hk hstring
    · exact absurd hk hstruct
    · exact (Env.returns_unionOf h.toFound hk).map

/-- The type of any member of an object is known. -/
theorem returns_objectType (h : t.Layered site.schema) : Returns (site.objectType t) :=
  (returns_objectAtom h.innermost).map

/-- The name of a type without layers is known, if its definition is found. -/
theorem returns_atomName {env : Env} (h : t.Found env.schema) : Returns (atomName env t) := by
  unfold atomName
  dsimp only
  split
  next => exact .ok _
  next =>
    refine .ite (fun _ => .ok _) fun _ => .ite (fun _ => .ok _) fun _ => ?_
    exact .ite (fun hb => (Env.returns_structOf h hb).map) fun _ => .ok _

/-- The name of a type is known, if the definition below its layers is found. -/
theorem returns_typeName {env : Env} (h : t.innermost.Found env.schema) : Returns (typeName env t) :=
  (returns_atomName h).map

/-! ## Enums and unions -/

/-- Packing and unpacking follow the variants of a union, each of which carries a string or a table. -/
theorem returns_variantCases (hs : site.schema.Closed) (he : e ∈ site.schema.enums) (hu : e.isUnion = true)
    {body : EnumVal → String → Except GenError Code}
    (hbody : ∀ v ∈ e.variants, (v.payload.isString ≠ true → Returns (site.structOf v.payload)) →
      ∀ name, Returns (body v name)) :
    Returns (variantCases site e body) :=
  .map (.mapM fun v hv => (hbody v hv (hs.returns_payload he hu hv) _).map)

/-- The object of a union is given: every variant carries a string or a table that is found. -/
theorem returns_unionObject (hs : site.schema.Closed) (he : e ∈ site.schema.enums) (hu : e.isUnion = true) :
    Returns (unionObject site e) := by
  unfold unionObject
  refine (returns_variantCases hs he hu fun v _ hpayload _ => ?_).bind fun packed _ => ?_
  · exact .ite (fun _ => .pure _) fun hstring => (hpayload hstring).map
  refine (returns_variantCases hs he hu fun v _ hpayload _ => ?_).bind fun unpacked _ => .pure _
  exact .ite (fun _ => .pure _) fun hstring => (hpayload hstring).map

/-- The code of an enum or union is given. -/
theorem returns_enumCode (hs : site.schema.Closed) (he : e ∈ site.schema.enums) : Returns (enumCode site e) := by
  unfold enumCode
  refine .ite (fun hu => ?_) fun _ => .pure _
  rw [Bool.and_eq_true] at hu
  exact (returns_unionObject hs he hu.1).map

/-! ## Builders -/

/-- The builder of a struct knows the types of all parameters. -/
theorem returns_structBuilder (hs : site.schema.Closed) (hd : d ∈ site.schema.structs) : Returns (structBuilder site d) := by
  unfold structBuilder
  refine .map (.mapM fun p hp => ?_)
  exact (returns_readAtom ((StructPlan.of_sound hs hd p hp).innermost hs).toFound).map

/-- The type of the argument that fills a slot of a table is known. -/
theorem returns_slotType (h : f.type.Layered site.schema) : Returns (slotType site f) :=
  .ite (fun _ => returns_readType h) fun _ => .ok _

/-- The builders of a table know the types of all slots. -/
theorem returns_tableBuilders (hs : site.schema.Closed) (hd : d ∈ site.schema.structs) : Returns (tableBuilders site d) := by
  have hslot : ∀ f ∈ d.liveFields, Returns (slotType site f) :=
    fun f hf => returns_slotType (hs.field d hd f (StructDef.mem_of_mem_liveFields hf))
  unfold tableBuilders
  refine (Returns.mapM fun f hf => (hslot f hf).map).bind fun adds _ => ?_
  exact .ite_bind (fun _ => .map (.mapM fun f hf => (hslot f hf).map)) (fun _ => .ok _) fun _ => .pure _

/-! ## Objects -/

/-- Members of an object are fields of its struct. -/
theorem objectFields_subset : ∀ f ∈ objectFields d, f ∈ d.fields := by
  intro f hf
  unfold objectFields at hf
  split at hf
  next => exact hf
  next => exact StructDef.mem_of_mem_liveFields (List.mem_filter.1 hf).1

/-- The types of the members of an object are known. -/
theorem returns_objectRows (hs : site.schema.Closed) (hd : d ∈ site.schema.structs) : Returns (objectRows site d) :=
  .mapM fun f hf => (returns_objectType (hs.field d hd f (objectFields_subset f hf))).map

/-- The declaration of an object is given. -/
theorem returns_objectDecl (hs : site.schema.Closed) (hd : d ∈ site.schema.structs) : Returns (objectDecl site d) :=
  (returns_objectRows hs hd).map

/-- A member of an object is filled from a struct. -/
theorem returns_unpackStructField (h : f.type.Layered site.schema) : Returns (unpackStructField site f) :=
  .ite (fun _ => .pure _) fun _ => .ite (fun _ => (returns_objectType h).map) fun _ => .pure _

/-- An argument for the builder of a struct is given: the last field on the path of a parameter is there. -/
theorem returns_structArgument (hs : site.schema.Closed) {p : StructParam} (hp : p.Sound site.schema) :
    Returns (structArgument site p) := by
  unfold structArgument
  dsimp only
  split
  next => exact (returns_readAtom (hp.innermost hs).toFound).map
  next => exact .pure _

/-- The object of a fixed struct is given. -/
theorem returns_structObject (hs : site.schema.Closed) (hd : d ∈ site.schema.structs) : Returns (structObject site d) := by
  unfold structObject
  refine (returns_objectDecl hs hd).bind fun decl _ => ?_
  refine (Returns.mapM fun p hp => returns_structArgument hs (StructPlan.of_sound hs hd p hp)).bind fun arguments _ => ?_
  exact .map (.mapM fun f hf => returns_unpackStructField (hs.field d hd f hf))

/-- A list of an object is filled from a vector. -/
theorem returns_unpackVector (h : f.type.Layered site.schema) (hv : f.type.base = .vector) :
    Returns (unpackVector site f) := by
  unfold unpackVector
  have helement := h.vectorElement (TypeDesc.isVector_iff.2 hv)
  refine (returns_objectType h).bind fun list _ => .ite (fun hb => ?_) fun _ => ?_
  · exact (Env.returns_structOf helement.toFound (TypeDesc.isStruct_iff.1 hb)).bind fun _ _ => .pure _
  · exact .ite (fun _ => .pure _) fun _ => .ite (fun _ => .pure _) fun _ => .pure _

/-- A member of an object is filled from a table, whatever its type. -/
theorem returns_unpackTableField (h : f.type.Layered site.schema) : Returns (unpackTableField site f) := by
  unfold unpackTableField
  refine .ite (fun _ => .pure _) fun _ => ?_
  split
  next => exact .pure _
  next => exact .pure _
  next => exact .pure _
  next hv => exact .ite (fun _ => .pure _) fun _ => returns_unpackVector h hv
  next => exact .pure _

/-- The object of a table is given. -/
theorem returns_tableObject (hs : site.schema.Closed) (hd : d ∈ site.schema.structs) : Returns (tableObject site d) := by
  unfold tableObject
  refine (returns_objectDecl hs hd).bind fun decl _ => .map (.mapM fun f hf => ?_)
  exact returns_unpackTableField (hs.field d hd f (objectFields_subset f hf))

/-! ## Readers -/

/-- The accessors of an array in a struct are given. -/
theorem returns_structArray {receiver : String} (h : f.type.elementType.Atom site.schema) :
    Returns (structArray site receiver f) := by
  unfold structArray
  refine .ite (fun hb => ?_) fun _ => ?_
  · exact (Env.returns_structOf h.toFound (TypeDesc.isStruct_iff.1 hb)).bind fun _ _ => .pure _
  · exact (returns_readType (.atom h)).bind fun _ _ => .pure _

/-- The accessors of a field of a struct are given. -/
theorem returns_structAccessor {receiver : String} (h : f.type.Layered site.schema) :
    Returns (structAccessor site receiver f) := by
  unfold structAccessor
  refine .ite (fun hb => (Env.returns_structOf h.found (TypeDesc.isStruct_iff.1 hb)).map) fun _ => ?_
  refine .ite (fun hb => ?_) fun _ => (returns_readType h).map
  exact returns_structArray (h.arrayElement hb)

/-- The mutators of a field of a struct are given. -/
theorem returns_structMutator {receiver : String} (h : f.type.Layered site.schema) :
    Returns (structMutator site receiver f) := by
  unfold structMutator
  refine .ite (fun hb => ?_) fun _ => (returns_readType h).map
  refine .ite (fun _ => .pure _) fun _ => ?_
  exact (returns_readType (.atom (h.arrayElement hb))).map

/-- What reads a struct is given. -/
theorem returns_structReader (hs : site.schema.Closed) (hd : d ∈ site.schema.structs) : Returns (structReader site d) := by
  unfold structReader
  refine .map (.mapM fun f hf => ?_)
  refine (returns_structAccessor (hs.field d hd f hf)).bind fun access _ => ?_
  exact .ite_bind (fun _ => returns_structMutator (hs.field d hd f hf)) (fun _ => .ok _) fun _ => .pure _

/-- The search by key is given: where a table has a key, the type of the key is known. -/
theorem returns_byKeyAccessor (hs : site.schema.Closed) {receiver : String} (hd : d ∈ site.schema.structs) :
    Returns (byKeyAccessor site receiver f d) := by
  unfold byKeyAccessor
  split
  next key _ hkey => exact (returns_objectType (hs.field d hd key (List.mem_of_find?_eq_some hkey))).map
  next => exact .pure _

/-- The accessor of the elements of a vector is given. -/
theorem returns_elementAccessor (hs : site.schema.Closed) {receiver : String} (h : f.type.elementType.Atom site.schema) :
    Returns (elementAccessor site receiver f) := by
  unfold elementAccessor
  refine .ite (fun hb => ?_) fun _ => .ite (fun _ => .pure _) fun _ => (returns_readType (.atom h)).map
  refine (Env.returns_structOf h.toFound (TypeDesc.isStruct_iff.1 hb)).bind fun inner hinner => ?_
  exact (returns_byKeyAccessor hs (Env.mem_of_structOf hinner)).map

/-- The accessors of a vector of bytes are given, if the table nested in it is found. -/
theorem returns_bytesAccessors {receiver : String} (hnested : ∀ i, f.nested = some i → i < site.schema.structs.length) :
    Returns (bytesAccessors site receiver f) := by
  unfold bytesAccessors
  dsimp only
  split
  next => exact .pure _
  next i hi => exact (Env.returns_structAt (hnested i hi)).bind fun _ _ => .pure _

/-- The accessors of a vector are given. -/
theorem returns_vectorAccessors (hs : site.schema.Closed) {receiver : String} (h : f.type.elementType.Atom site.schema)
    (hnested : ∀ i, f.nested = some i → i < site.schema.structs.length) : Returns (vectorAccessors site receiver f) := by
  unfold vectorAccessors
  refine (returns_elementAccessor hs h).bind fun element _ => ?_
  exact .ite_bind (fun _ => returns_bytesAccessors hnested) (fun _ => .ok _) fun _ => .pure _

/-- The accessors of a field of a table are given. -/
theorem returns_tableAccessors (hs : site.schema.Closed) {receiver : String} (h : f.type.Layered site.schema)
    (hnested : ∀ i, f.nested = some i → i < site.schema.structs.length) : Returns (tableAccessors site receiver f) := by
  unfold tableAccessors
  refine .ite (fun _ => (returns_readType h).map) fun _ => ?_
  split
  next hb => exact (Env.returns_structOf h.found hb).map
  next => exact .pure _
  next => exact .pure _
  next hv =>
    have helement := h.vectorElement (TypeDesc.isVector_iff.2 hv)
    exact returns_vectorAccessors hs helement hnested
  next => exact .pure _

/-- The mutator of a field of a table is given. -/
theorem returns_tableMutator {receiver : String} (h : f.type.Layered site.schema) :
    Returns (tableMutator site receiver f) := by
  unfold tableMutator
  refine .ite (fun _ => (returns_readType h).map) fun _ => ?_
  refine .ite (fun hb => ?_) fun _ => .pure _
  rw [Bool.and_eq_true] at hb
  exact (returns_readType (.atom (h.vectorElement hb.1))).map

/-- What reads a table is given, the comparison of keys included. -/
theorem returns_tableReader (hs : site.schema.Closed) (hd : d ∈ site.schema.structs) {i : Nat} :
    Returns (tableReader site i d) := by
  unfold tableReader
  refine (Returns.mapM fun f hf => ?_).bind fun fields _ => ?_
  · have hmem := StructDef.mem_of_mem_liveFields hf
    have hfield := hs.field d hd f hmem
    refine (returns_tableAccessors hs hfield (hs.nested d hd f hmem)).bind fun access _ => ?_
    exact .ite_bind (fun _ => returns_tableMutator hfield) (fun _ => .ok _) fun _ => .pure _
  · split
    next key hkey =>
      have hfield := hs.field d hd key (List.mem_of_find?_eq_some hkey)
      exact (returns_objectType hfield).map.bind fun _ _ => .pure _
    next => exact .pure _

/-! ## Packages -/

/-- The code of a fixed struct is given. -/
theorem returns_structCode (hs : site.schema.Closed) (hd : d ∈ site.schema.structs) : Returns (structCode site d) := by
  unfold structCode
  refine .ite_bind (fun _ => returns_structObject hs hd) (fun _ => .ok _) fun object => ?_
  refine (returns_structReader hs hd).bind fun reader _ => ?_
  exact (returns_structBuilder hs hd).map

/-- The code of a table is given. -/
theorem returns_tableCode (hs : site.schema.Closed) (hd : d ∈ site.schema.structs) {i : Nat} : Returns (tableCode site i d) := by
  unfold tableCode
  refine .ite_bind (fun _ => returns_tableObject hs hd) (fun _ => .ok _) fun object => ?_
  refine (returns_tableReader hs hd).bind fun reader _ => ?_
  exact (returns_tableBuilders hs hd).map

/-- The code of every definition of a closed schema is given. -/
theorem returns_define (o : Options) {env : Env} (hs : env.schema.Closed) (state : FileState) {x : Definition}
    (hx : x.Within env.schema) : Returns ((target o).define env state x) := by
  cases x with
  | enum _ e =>
    refine .map ?_
    exact returns_enumCode hs hx
  | struct i d =>
    refine .ite (fun _ => .map ?_) fun _ => .map ?_
    · exact returns_structCode hs hx
    · exact returns_tableCode hs hx

/-- The widths of the columns of every definition are known. -/
theorem returns_columns {env : Env} (hs : env.schema.Closed) {x : Definition} (hx : x.Within env.schema) :
    Returns (columns env x) := by
  cases x with
  | enum _ e => exact .ok _
  | struct _ d =>
    have hrows : Returns (objectRows { toEnv := env, here := d.scope } d) := returns_objectRows hs hx
    exact .ite (fun _ => hrows.map) fun _ => .pure _

end FlatSchema.Go
