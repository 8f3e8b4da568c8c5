import FlatSchema.Proofs.Lookups
import FlatSchema.Target.PythonModule

/-!
# Python code is always given

For a closed schema every generator of Python gives a result. Each look-up stands behind a test of the kind of its type, and the
lemmas follow the generators test by test.
-/

namespace FlatSchema.Python

variable {env : Env} {t : TypeDesc} {d : StructDef} {e : EnumDef} {f : FieldDef}

/-! ## Names -/

/-- The name of a type without layers is known, if its definition is found. -/
theorem returns_atomName (h : t.Found env.schema) : Returns (atomName env t) := by
  unfold atomName
  split
  next => exact .ok _
  next hb => exact (Env.returns_structOf h hb).map
  next => exact .ok _
  next =>
    refine .ite (fun he => (Env.returns_enumOf h he).map) fun _ => ?_
    refine .ite (fun _ => .ok _) fun _ => ?_
    exact .ite (fun _ => .ok _) fun _ => .ok _

/-- The name of a type is known, if the definition below its layers is found. -/
theorem returns_typeName (h : t.innermost.Found env.schema) : Returns (typeName env t) :=
  (returns_atomName h).map

/-- The module of an enum or a struct is known, if its definition is found. -/
theorem returns_importType (h : t.Found env.schema) (hb : t.isEnum = true ∨ t.isStruct = true) :
    Returns (importType env t) := by
  unfold importType
  split
  next => exact .ok _
  next hnone =>
    rcases hb with hb | hb
    · exact (Env.returns_enumOf h hb).map
    · obtain ⟨d, _, hd⟩ := h.record (TypeDesc.isStruct_iff.1 hb)
      rw [hnone] at hd
      cases hd

/-- The module of an object is that of its struct. -/
theorem returns_importObject (h : Returns (env.structOf t)) : Returns (importObject env t) := h.map

/-! ## Enums and unions -/

/-- The tables of a union are found. -/
theorem returns_tableTypes (hs : env.schema.Closed) (he : e ∈ env.schema.enums) : Returns (tableTypes env e) := by
  unfold tableTypes
  refine .map (.mapM fun v hv => ?_)
  obtain ⟨hv, htable⟩ := List.mem_filter.1 hv
  have hstruct := TypeDesc.isStruct_iff.2 (Schema.isTable_spec htable).1
  exact (returns_importType (hs.payload e he v (EnumDef.mem_of_mem_variants hv)).1 (.inr hstruct)).map

/-- The class of an enum or union is given. -/
theorem returns_enumClass (hs : env.schema.Closed) (he : e ∈ env.schema.enums) : Returns (enumClass env e) := by
  unfold enumClass
  exact .ite (fun _ => (returns_tableTypes hs he).map) fun _ => .pure _

/-- A variant carries a string or a table, so that the last branch is never taken. -/
theorem returns_payloadBranch (hs : env.schema.Closed) (he : e ∈ env.schema.enums) (hu : e.isUnion = true) {v : EnumVal}
    (hv : v ∈ e.variants) : Returns (payloadBranch env e v) := by
  unfold payloadBranch
  refine .ite (fun _ => .pure _) fun hstring => ?_
  refine .ite (fun _ => ?_) fun htable => ?_
  · exact (returns_importObject (hs.returns_payload he hu hv hstring)).map
  · rcases hs.variant e he hu v hv with h | h
    · exact absurd h hstring
    · exact absurd h htable

/-- The code of an enum or union is given. -/
theorem returns_enumCode (hs : env.schema.Closed) (he : e ∈ env.schema.enums) : Returns (enumCode env e) := by
  unfold enumCode
  refine (returns_enumClass hs he).bind fun cls _ => ?_
  refine .ite (fun hu => ?_) fun _ => .pure _
  rw [Bool.and_eq_true] at hu
  exact .map (.map (.mapM fun v hv => returns_payloadBranch hs he hu.1 hv))

/-! ## Objects -/

/-- A member of an object is filled from a struct. -/
theorem returns_unpackStructField (h : f.type.Layered env.schema) : Returns (unpackStructField env f) := by
  unfold unpackStructField
  refine .ite (fun hb => ?_) fun _ => ?_
  · exact (returns_importObject (Env.returns_structOf h.found (TypeDesc.isStruct_iff.1 hb))).map
  refine .ite (fun hb => ?_) fun _ => .ite (fun _ => .pure _) fun _ => .pure _
  rw [Bool.and_eq_true, TypeDesc.isStruct_iff] at hb
  have helement := h.arrayElement hb.1
  exact (returns_importObject (Env.returns_structOf helement.toFound hb.2)).map

/-- The object of a fixed struct is given. -/
theorem returns_structObject (hs : env.schema.Closed) (hd : d ∈ env.schema.structs) : Returns (structObject env d) :=
  .map (.mapM fun f hf => returns_unpackStructField (hs.field d hd f hf))

/-- A list of an object is filled from a vector. -/
theorem returns_unpackVector (h : f.type.elementType.Found env.schema) : Returns (unpackVector env f) := by
  unfold unpackVector
  refine .ite (fun hb => ?_) fun _ => .ite (fun hb => ?_) fun _ => .pure _
  · exact (Env.returns_unionOf h (beq_iff_eq.1 hb)).bind fun _ _ => .pure _
  · exact (returns_importObject (Env.returns_structOf h (TypeDesc.isStruct_iff.1 hb))).bind fun _ _ => .pure _

/-- A member of an object is filled from a table, whatever its type. -/
theorem returns_unpackTableField (h : f.type.Layered env.schema) : Returns (unpackTableField env f) := by
  unfold unpackTableField
  refine .ite (fun _ => .pure _) fun hplain => ?_
  refine .ite (fun hb => (Env.returns_unionOf h.found (beq_iff_eq.1 hb)).map) fun hunion => ?_
  refine .ite (fun hb => ?_) fun hstruct => ?_
  · exact (returns_importObject (Env.returns_structOf h.found (TypeDesc.isStruct_iff.1 hb))).map
  cases h with
  | atom h =>
    -- no atom is left for the last branch
    rw [Bool.or_eq_true, not_or] at hplain
    rcases h.kind with hk | hk | hk | hk
    · exact absurd hk hplain.1
    · exact absurd (beq_iff_eq.2 hk) hplain.2
    · exact absurd (beq_iff_eq.2 hk) hstruct
    · exact absurd (beq_iff_eq.2 hk) hunion
  | container _ h => exact returns_unpackVector h.toFound

/-- A child that is built before its table is packed. -/
theorem returns_packChild (h : f.type.Layered env.schema) {kind : ChildKind}
    (hk : env.schema.childKind? f.type = some kind) : Returns (packChild env f kind) := by
  have helement : kind ∉ [.string, .table, .union] → f.type.elementType.Found env.schema := by
    intro hmem
    exact (h.vectorElement (Schema.vectorKind_of_childKind? hk hmem).1).toFound
  unfold packChild
  cases kind with
  | string | table | scalarVector | unionTypeVector | stringVector | tableVector => exact .pure _
  | union => exact (Env.returns_unionOf h.found (Schema.childKind?_eq_union hk)).map
  | unionVector =>
    have hkind := (Schema.vectorKind_of_childKind? hk (by decide)).2
    exact (Env.returns_unionOf (helement (by decide)) (Schema.base_of_vectorKind.1 hkind)).map
  | structVector =>
    have hkind := (Schema.vectorKind_of_childKind? hk (by decide)).2
    exact (Env.returns_structOf (helement (by decide)) (Schema.base_of_vectorKind.2 hkind)).map

/-- The object of a table is given. -/
theorem returns_tableObject (hs : env.schema.Closed) (hd : d ∈ env.schema.structs) : Returns (tableObject env d) := by
  have hfield : ∀ f ∈ d.liveFields, f.type.Layered env.schema :=
    fun f hf => hs.field d hd f (StructDef.mem_of_mem_liveFields hf)
  unfold tableObject
  refine (Returns.mapM fun f hf => returns_unpackTableField (hfield f hf)).bind fun fields _ => ?_
  refine .map (.mapM fun ⟨f, kind⟩ hmem => ?_)
  obtain ⟨f', hf', hmap⟩ := List.mem_filterMap.1 hmem
  obtain ⟨kind', hkind', hpair⟩ := Option.map_eq_some_iff.1 hmap
  cases hpair
  exact (returns_packChild (hfield f hf') hkind').map

/-! ## Views -/

/-- The accessor of a scalar in a struct is given. -/
theorem returns_structScalar (h : f.type.Found env.schema) : Returns (structScalar env f) := by
  unfold structScalar
  refine .ite (fun hb => ?_) fun _ => .pure _
  refine (returns_importType h (.inl hb)).bind fun _ _ => ?_
  exact (Env.returns_enumOf h hb).bind fun _ _ => .pure _

/-- The accessors of an array in a struct are given. -/
theorem returns_structArray (h : f.type.elementType.Found env.schema) : Returns (structArray env f) := by
  unfold structArray
  refine .ite (fun hb => ?_) fun _ => .pure _
  exact (returns_importType h (.inr hb)).bind fun _ _ => .pure _

/-- The accessors of a field of a struct are given. -/
theorem returns_structAccessor (h : f.type.Layered env.schema) : Returns (structAccessor env f) := by
  unfold structAccessor
  refine .ite (fun hb => ?_) fun _ => .ite (fun hb => ?_) fun _ => ?_
  · exact (returns_importType h.found (.inr hb)).bind fun _ _ => .pure _
  · exact (returns_structArray (h.arrayElement hb).toFound).map
  · exact (returns_structScalar h.found).map

/-- The class that reads a struct is given. -/
theorem returns_structClass (hs : env.schema.Closed) (hd : d ∈ env.schema.structs) : Returns (structClass env d) :=
  .map (.mapM fun f hf => (returns_structAccessor (hs.field d hd f hf)).map)

/-- What reads a field that is no list is given. -/
theorem returns_fieldRead (h : f.type.Found env.schema) {cls : String} : Returns (fieldRead env f cls) := by
  unfold fieldRead
  refine .ite (fun _ => ?_) fun _ => ?_
  · refine .ite (fun hb => (Env.returns_enumOf h hb).map) fun _ => ?_
    exact .ite (fun _ => .pure _) fun _ => .pure _
  · refine .ite (fun _ => .pure _) fun _ => .ite (fun _ => .pure _) fun _ => ?_
    exact .ite (fun _ => .pure _) fun _ => .pure _

/-- The accessor of a field that is no list is given. -/
theorem returns_plainAccessor (h : f.type.Found env.schema) : Returns (plainAccessor env f) := by
  unfold plainAccessor
  refine .ite (fun hb => ?_) fun _ => ?_
  · rw [Bool.or_eq_true] at hb
    exact (returns_importType h hb).bind fun _ _ => (returns_fieldRead h).map
  · exact (returns_fieldRead h).map

/-- What reads an element of a vector is given. -/
theorem returns_elementRead (h : f.type.elementType.Atom env.schema) : Returns (elementRead env f) := by
  unfold elementRead
  refine .ite (fun _ => ?_) fun hscalar => ?_
  · refine .ite (fun hb => ?_) fun _ => .pure _
    refine (returns_importType h.toFound (.inl hb)).bind fun _ _ => ?_
    exact (Env.returns_enumOf h.toFound hb).bind fun _ _ => .pure _
  refine .ite (fun _ => .pure _) fun hstring => .ite (fun _ => .pure _) fun hunion => ?_
  have hstruct : f.type.elementType.isStruct = true := by
    rcases h.kind with hk | hk | hk | hk
    · exact absurd hk hscalar
    · exact absurd (beq_iff_eq.2 hk) hstring
    · exact beq_iff_eq.2 hk
    · exact absurd (beq_iff_eq.2 hk) hunion
  exact (returns_importType h.toFound (.inr hstruct)).map

/-- The accessor of a nested buffer is given, if its table is found. -/
theorem returns_nestedRoot {i : Nat} (hi : i < env.schema.structs.length) : Returns (nestedRoot env f i) :=
  (returns_importType (TypeDesc.record_wellFormed hi).found (.inr rfl)).map

/-- The accessors of a vector are given. -/
theorem returns_vectorAccessors (h : f.type.elementType.Atom env.schema)
    (hnested : ∀ i, f.nested = some i → i < env.schema.structs.length) : Returns (vectorAccessors env f) := by
  unfold vectorAccessors
  refine (returns_elementRead h).bind fun ⟨read, fallback⟩ _ => ?_
  dsimp only
  split
  next i hi => exact (returns_nestedRoot (hnested i hi)).map
  next => exact .pure _

/-- The class that reads a table is given. -/
theorem returns_tableClass (hs : env.schema.Closed) (hd : d ∈ env.schema.structs) {i : Nat} :
    Returns (tableClass env i d) := by
  unfold tableClass
  refine .map (.mapM fun f hf => ?_)
  have hmem := StructDef.mem_of_mem_liveFields hf
  have hfield := hs.field d hd f hmem
  unfold tableField
  refine .ite (fun hb => ?_) fun _ => (returns_plainAccessor hfield.found).map
  exact (returns_vectorAccessors (hfield.vectorElement hb) (hs.nested d hd f hmem)).map

/-! ## Modules -/

/-- The code of a fixed struct is given. -/
theorem returns_structCode (hs : env.schema.Closed) (hd : d ∈ env.schema.structs) : Returns (structCode env d) := by
  unfold structCode
  refine (returns_structClass hs hd).bind fun view _ => ?_
  exact .ite (fun _ => (returns_structObject hs hd).bind fun _ _ => .pure _) fun _ => .pure _

/-- The code of a table is given. -/
theorem returns_tableCode (hs : env.schema.Closed) (hd : d ∈ env.schema.structs) {i : Nat} : Returns (tableCode env i d) := by
  unfold tableCode
  refine (returns_tableClass hs hd).bind fun view _ => ?_
  exact .ite (fun _ => (returns_tableObject hs hd).bind fun _ _ => .pure _) fun _ => .pure _

/-- The code of every definition of a closed schema is given. -/
theorem returns_define (o : Options) (hs : env.schema.Closed) (state : FileState) {x : Definition} (hx : x.Within env.schema) :
    Returns ((target o).define env state x) := by
  cases x with
  | enum _ e => exact (returns_enumCode hs hx).map
  | struct i d => exact .ite (fun _ => (returns_structCode hs hx).map) fun _ => (returns_tableCode hs hx).map

end FlatSchema.Python
