import FlatSchema.Proofs.Lookups
import FlatSchema.Target.CSharpNamespace

/-!
# C# code is always given

For a closed schema every generator of C# gives a result. The slots of tables rely on more than look-ups: a value that is no
scalar, string, vector or union has to be a struct or table, which is so since arrays stand in fixed structs only.
-/

namespace FlatSchema.CSharp

variable {env : Env} {t : TypeDesc} {d : StructDef} {e : EnumDef} {f : FieldDef}

/-! ## Names -/

/-- The type of a value without layers is known, if its definition is found. -/
theorem returns_atomType (h : t.Found env.schema) : Returns (atomType env t) := by
  unfold atomType
  split
  next => exact .ok _
  next =>
    refine .ite (fun _ => .ok _) fun _ => .ite (fun _ => .ok _) fun _ => ?_
    exact .ite (fun hb => (Env.returns_structOf h hb).map) fun _ => .ok _

/-- Behind a layer of a vector or an array there is a type that can be read. -/
theorem returns_readType (h : t.Layered env.schema) : Returns (readType env t) := returns_atomType h.innermost.toFound

/-! ## Fixed structs -/

/-- The members of an array in a struct are given. -/
theorem returns_structArray (h : f.type.elementType.Atom env.schema) : Returns (structArray env d f) := by
  unfold structArray
  refine .ite (fun hb => ?_) fun _ => (returns_readType (.atom h)).map
  exact (Env.returns_structOf h.toFound (TypeDesc.isStruct_iff.1 hb)).map

/-- The members of a field of a struct are given. -/
theorem returns_structField (h : f.type.Layered env.schema) : Returns (structField env d f) := by
  unfold structField
  refine .ite (fun hb => (Env.returns_structOf h.found (TypeDesc.isStruct_iff.1 hb)).map) fun _ => ?_
  refine .ite (fun hb => ?_) fun _ => (returns_readType h).map
  exact returns_structArray (h.arrayElement hb)

/-- The creator of a struct knows the types of all parameters. -/
theorem returns_structCreator (hs : env.schema.Closed) (hd : d ∈ env.schema.structs) : Returns (structCreator env d) := by
  unfold structCreator
  refine .map (.mapM fun p hp => ?_)
  exact (returns_atomType ((StructPlan.of_sound hs hd p hp).innermost hs).toFound).map

/-- The code of a fixed struct is given. -/
theorem returns_structCode (hs : env.schema.Closed) (hd : d ∈ env.schema.structs) : Returns (structCode env d) := by
  unfold structCode
  refine (Returns.mapM fun f hf => (returns_structField (hs.field d hd f hf)).map).bind fun fields _ => ?_
  exact (returns_structCreator hs hd).map

/-! ## Members of tables -/

/-- The member for a variant of a union is given: the variant carries a string or a table that is found. -/
theorem returns_variantMember (hs : env.schema.Closed) (he : e ∈ env.schema.enums) (hu : e.isUnion = true) {v : EnumVal}
    (hv : v ∈ e.variants) {name : String} : Returns (variantMember env f name v) := by
  unfold variantMember
  exact .ite (fun _ => .pure _) fun hstring => (hs.returns_payload he hu hv hstring).map

/-- The member for the elements of a vector is given. -/
theorem returns_elementMember (h : f.type.elementType.Atom env.schema) {name : String} :
    Returns (elementMember env f name) := by
  unfold elementMember
  dsimp only
  split
  next hb => exact (Env.returns_structOf h.toFound hb).map
  next => exact .pure _
  next => exact .pure _
  next => exact (returns_readType (.atom h)).map

/-- The member for a nested buffer is given, if its table is found. -/
theorem returns_nestedMember (hnested : ∀ i, f.nested = some i → i < env.schema.structs.length) {name : String} :
    Returns (nestedMember env f name) := by
  unfold nestedMember
  split
  next => exact .pure _
  next i hi => exact (Env.returns_structAt (hnested i hi)).map

/-- The search by key is given: where a table has a key, the type of the key is known. -/
theorem returns_byKeyMember (hs : env.schema.Closed) (h : f.type.elementType.Found env.schema) {name : String} :
    Returns (byKeyMember env f name) := by
  unfold byKeyMember
  refine .ite (fun hb => ?_) fun _ => .pure _
  refine (Env.returns_structOf h (TypeDesc.isStruct_iff.1 hb)).bind fun inner hinner => ?_
  split
  next key _ hkey =>
    exact (returns_readType (hs.field inner (Env.mem_of_structOf hinner) key (List.mem_of_find?_eq_some hkey))).map
  next => exact .pure _

/-- The members of a vector are given. -/
theorem returns_vectorMembers (hs : env.schema.Closed) (h : f.type.elementType.Atom env.schema)
    (hnested : ∀ i, f.nested = some i → i < env.schema.structs.length) {name : String} :
    Returns (vectorMembers env f name) := by
  unfold vectorMembers
  refine (returns_elementMember h).bind fun element _ => ?_
  refine (returns_nestedMember hnested).bind fun nested _ => ?_
  refine (returns_byKeyMember hs h.toFound).bind fun byKey _ => ?_
  exact (returns_readType (.atom h)).map

/-- The members of a field of a table are given. -/
theorem returns_tableMembers (hs : env.schema.Closed) (h : f.type.Layered env.schema)
    (hnested : ∀ i, f.nested = some i → i < env.schema.structs.length) : Returns (tableMembers env d f) := by
  unfold tableMembers scalarMembers
  refine .ite (fun _ => (returns_readType h).map) fun _ => ?_
  split
  next hb => exact (Env.returns_structOf h.found hb).map
  next => exact .pure _
  next hb =>
    refine (Env.returns_unionOf h.found hb).bind fun union hunion => ?_
    obtain ⟨he, hu⟩ := Env.union_of_enumOf h.found hb hunion
    exact .map (.mapM fun v hv => returns_variantMember hs he hu hv)
  next hv =>
    have helement := h.vectorElement (TypeDesc.isVector_iff.2 hv)
    exact returns_vectorMembers hs helement hnested
  next => exact .pure _

/-! ## Builders of tables -/

/-- What is added for a field of a table: only a struct or table is left for the last case. -/
theorem returns_slotType (h : t.Layered env.schema) (harray : t.isArray ≠ true) : Returns (slotType env t) := by
  unfold slotType
  refine .ite (fun _ => returns_readType h) fun hscalar => ?_
  split
  next => exact .ok _
  next => exact .ok _
  next => exact .ok _
  next hstring hvector hunion =>
    refine .map (Env.returns_structOf h.found ?_)
    cases h with
    | atom h =>
      rcases h.kind with hk | hk | hk | hk
      · exact absurd hk hscalar
      · exact absurd hk hstring
      · exact hk
      · exact absurd hk hunion
    | container hc _ =>
      rcases BaseType.isContainer_iff.1 hc with hb | hb
      · exact absurd hb hvector
      · exact absurd (TypeDesc.isArray_iff.2 hb) harray

/-- The type from which a vector is created is known, where there is one. -/
theorem returns_vectorSource? (h : t.Atom env.schema) : Returns (vectorSource? env t) := by
  unfold vectorSource?
  refine .ite (fun _ => (returns_readType (.atom h)).map) fun _ => ?_
  split
  next => exact .pure _
  next => exact .pure _
  next hb => exact .ite (fun _ => .pure _) fun _ => (Env.returns_structOf h.toFound hb).map
  next => exact .pure _

/-- The methods that add a field to a table are given. No field of a table is an array. -/
theorem returns_addMethods (h : f.type.Layered env.schema) (harray : f.type.isArray ≠ true) :
    Returns (addMethods env d f) := by
  unfold addMethods
  refine (returns_slotType h harray).bind fun slot _ => ?_
  refine .ite_bind (fun hv => ?_) (fun _ => .ok _) fun _ => .pure _
  unfold vectorBuilders
  exact (returns_vectorSource? (h.vectorElement hv)).map

/-- The code of a table is given. -/
theorem returns_tableCode (hs : env.schema.Closed) (hd : d ∈ env.schema.structs) (htable : d.fixed ≠ true) {i : Nat} :
    Returns (tableCode env i d) := by
  have harray : ∀ f ∈ d.liveFields, f.type.isArray ≠ true :=
    fun f hf ha => htable (hs.array d hd f (StructDef.mem_of_mem_liveFields hf) ha)
  have hfield : ∀ f ∈ d.liveFields, f.type.Layered env.schema :=
    fun f hf => hs.field d hd f (StructDef.mem_of_mem_liveFields hf)
  unfold tableCode
  refine (Returns.mapM fun f hf => ?_).bind fun fields _ => ?_
  · exact (returns_tableMembers hs (hfield f hf) (hs.nested d hd f (StructDef.mem_of_mem_liveFields hf))).map
  refine .ite_bind (fun _ => ?_) (fun _ => .ok _) fun create => ?_
  · exact .map (.mapM fun f hf => (returns_slotType (hfield f hf) (harray f hf)).map)
  refine Returns.bind ?_ fun builders _ => ?_
  · exact .map (.mapM fun f hf => returns_addMethods (hfield f hf) (harray f hf))
  split
  next key hkey =>
    exact (returns_readType (hs.field d hd key (List.mem_of_find?_eq_some hkey))).map.bind fun _ _ => .pure _
  next => exact .pure _

/-- The code of every definition of a closed schema is given. -/
theorem returns_define (o : Options) (hs : env.schema.Closed) (state : FileState) {x : Definition} (hx : x.Within env.schema) :
    Returns ((target o).define env state x) := by
  cases x with
  | enum _ e => exact .pure _
  | struct i d =>
    refine .ite (fun _ => ?_) fun htable => ?_
    · exact (returns_structCode hs hx).bind fun _ _ => .pure _
    · exact (returns_tableCode hs hx htable).bind fun _ _ => .pure _

end FlatSchema.CSharp
